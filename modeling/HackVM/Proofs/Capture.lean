import HackVM.Machine
import HackVM.Proofs.Names

/-!
# Calls and statics whose names are taken

Nothing checks the names of functions and statics against the other symbols of a program. If a
function is named like a predefined symbol, a call of it jumps to the predefined value; if a
static has the symbol of a label, an access to it goes to the cell whose address is the address
of the label. In all other cases a call jumps to the entry of its function, and a static has a
cell of its own.
-/

namespace HackVM

open Assembly Instruction Sequence

/-! ## Where the words of interest stand -/

/-- At `a` stands an unconditional jump to `target`. -/
def Rom.JumpsAt (r : Rom) (a : Nat) (target : Word) : Prop :=
  r.code[a]? = some (.load target) ∧
    r.code[a + 1]? = some (.compute none .zero (some .always))

/-- At `a` the address of a cell is loaded, and the next word reads or writes the cell. -/
def Rom.AccessesAt (r : Rom) (a : Nat) (address : Word) : Prop :=
  r.code[a]? = some (.load address) ∧ ∃ op, r.code[a + 1]? = some op ∧ op.usesMemory = true

/-- The symbol of the static element that the command pushes or pops. -/
def Site.static? (s : Site) : Option String :=
  match s.command with
  | .push .static i | .pop .static i => some (staticSymbol s.place.unit i)
  | _ => none

/-- Words in front of the access to a static element: a pop takes the value first. -/
def Site.accessOffset (s : Site) : Nat :=
  match s.command with
  | .pop _ _ => words popD
  | _ => 0

theorem Rom.jumpsAt_of_holdsAt {r : Rom} {a : Nat} {target : String}
    (h : r.HoldsAt a (jumpTo target)) : r.JumpsAt a (r.value target) := ⟨h.1, h.2.1⟩

variable {o : Options} {units : List SourceUnit} {p : Program}

/-- A call jumps to the number that stands for the name of the function. -/
theorem Translated.jumpsAt_call (h : Translated o units p) {s : Site} {n : Numbering} {a : Nat}
    (hs : Placed (pieces o units) a (.command s n)) {name : String} {k : Nat}
    (hc : s.command = .call name k) :
    (Rom.link p.instructions).JumpsAt (a + 47) ((Rom.link p.instructions).value name) := by
  have hh := h.holdsAt hs
  rw [code_of_command hc rfl, Expansion.call_eq, Rom.holdsAt_append, Expansion.words_openFrame,
    Rom.holdsAt_append] at hh
  exact Rom.jumpsAt_of_holdsAt hh.2.1

/-- The entry label of a function is where its command stands. -/
theorem Translated.labelAddress?_function (h : Translated o units p) {s : Site} {n : Numbering}
    {a : Nat} (hs : Placed (pieces o units) a (.command s n)) {name : String} {k : Nat}
    (hc : s.command = .function name k) :
    (Rom.link p.instructions).labelAddress? name = some a := by
  have hh := h.holdsAt hs
  rw [code_of_command hc rfl, Expansion.function] at hh
  exact hh.1

/-- A push or pop of a static goes to the cell that stands for its symbol. -/
theorem Translated.accessesAt_static (h : Translated o units p) {s : Site} {n : Numbering}
    {a : Nat} (hs : Placed (pieces o units) a (.command s n)) {name : String}
    (hn : s.static? = some name) :
    (Rom.link p.instructions).AccessesAt (a + s.accessOffset)
        ((Rom.link p.instructions).value name) ∧
      load (.symbol name) ∈ p.instructions := by
  have hh := h.holdsAt hs
  have hm : ∀ i ∈ (Piece.command s n).code, i ∈ p.instructions := by
    intro i hi
    rw [h.instructions]
    refine List.mem_flatMap.2 ⟨_, hs.mem, ?_⟩
    rw [SourceUnit.quoted]
    split
    · exact List.mem_cons_of_mem _ hi
    · exact hi
  rw [Site.static?] at hn
  split at hn
  · rename_i i hc
    cases hn
    rw [code_of_command hc rfl] at hh hm
    rw [Site.accessOffset, hc]
    exact ⟨⟨hh.1, _, hh.2.1, rfl⟩, hm _ (by simp [Expansion.push, pushCell, fetchD])⟩
  · rename_i i hc
    cases hn
    rw [code_of_command hc rfl] at hh hm
    rw [popCell, Rom.holdsAt_append] at hh
    rw [Site.accessOffset, hc]
    exact ⟨⟨hh.2.1, _, hh.2.2.1, rfl⟩, hm _ (by simp [popCell, storeD])⟩
  · cases hn

theorem Site.predefined_static {s : Site} {name : String} (h : s.static? = some name) :
    MemoryMap.predefined.lookup name = none := by
  rw [static?] at h
  split at h
  · cases h
    exact lookup_predefined_of_mem (.inr rfl) (dot_mem_staticSymbol _ _)
  · cases h
    exact lookup_predefined_of_mem (.inr rfl) (dot_mem_staticSymbol _ _)
  · cases h

theorem Site.dollar_mem_unit {s : Site} {name : String} (h : s.static? = some name)
    (hd : '$' ∈ name.toList) : '$' ∈ s.place.unit.toList := by
  rw [static?] at h
  split at h
  · cases h
    exact dollar_mem_staticSymbol hd
  · cases h
    exact dollar_mem_staticSymbol hd
  · cases h

theorem Site.static?_ne_haltLabel (s : Site) : s.static? ≠ some haltLabel := by
  intro h
  have hd : '.' ∈ haltLabel.toList := by
    rw [static?] at h
    split at h
    · rw [← Option.some.inj h]
      exact dot_mem_staticSymbol _ _
    · rw [← Option.some.inj h]
      exact dot_mem_staticSymbol _ _
    · cases h
  exact absurd hd (by decide)

/-- No label of the program is a predefined symbol or the symbol of a static in use. -/
def LabelsApart (units : List SourceUnit) (p : Program) : Prop :=
  ∀ name ∈ labels p.instructions, MemoryMap.predefined.lookup name = none ∧
    ∀ s ∈ sites units, s.static? ≠ some name

/-- The labels are apart just if the functions are, and those statics that have a `$` in the
name of their unit. -/
theorem Translated.labelsApart_iff (h : Translated o units p) :
    LabelsApart units p ↔
      (∀ s ∈ sites units, ∀ name k, s.command = .function name k →
        MemoryMap.predefined.lookup name = none ∧ ∀ t ∈ sites units, t.static? ≠ some name) ∧
      ∀ s ∈ sites units, ∀ name, s.static? = some name → '$' ∈ s.place.unit.toList →
        name ∉ labels p.instructions := by
  constructor
  · intro ha
    refine ⟨fun s hs name k hk => ha name (h.mem_labels_of_function hs hk), ?_⟩
    intro s hs name hn _ hm
    exact (ha name hm).2 s hs hn
  · intro ⟨hf, hd⟩ name hm
    rcases h.label_cases hm with hc | rfl | ⟨s, hs, k, hk⟩
    · refine ⟨lookup_predefined_of_mem (.inl rfl) hc, ?_⟩
      intro s hs hn
      exact hd s hs name hn (s.dollar_mem_unit hn hc) hm
    · exact ⟨lookup_predefined_haltLabel, fun s _ => s.static?_ne_haltLabel⟩
    · exact hf s hs name k hk

/-- What the calls and the statics of an accepted program come to. A call of a declared function
jumps to the entry of the function unless its name is predefined; a static has a cell of its
own unless its symbol is a label. -/
theorem calls_and_statics_of_translated (h : translate o units = .ok p) :
    (LabelsApart units p ↔
      (∀ s ∈ sites units, ∀ name k, s.command = .function name k →
        MemoryMap.predefined.lookup name = none ∧ ∀ t ∈ sites units, t.static? ≠ some name) ∧
      ∀ s ∈ sites units, ∀ name, s.static? = some name → '$' ∈ s.place.unit.toList →
        name ∉ labels p.instructions) ∧
    ∃ r, Rom.load p.text = .ok r ∧
      (∀ s n a name k, Placed (pieces o units) a (.command s n) → s.command = .call name k →
        ∀ t m b l, Placed (pieces o units) b (.command t m) → t.command = .function name l →
          r.JumpsAt (a + 47)
            (BitVec.ofNat 16 ((MemoryMap.predefined.lookup name).getD b))) ∧
      (∀ s n a name, Placed (pieces o units) a (.command s n) → s.static? = some name →
        ∃ c, r.AccessesAt (a + s.accessOffset) (BitVec.ofNat 16 c) ∧
          (name ∈ labels p.instructions → r.labelAddress? name = some c) ∧
          (name ∉ labels p.instructions →
            r.variableAddress? name = some c ∧ MemoryMap.firstVariable ≤ c)) ∧
      ∀ x y c, r.variableAddress? x = some c → r.variableAddress? y = some c → x = y := by
  have ht := translated_of_translate h
  refine ⟨ht.labelsApart_iff, Rom.link p.instructions, ht.load_text, ?_, ?_, ?_⟩
  · intro s n a name k hs hc t m b l hp hf
    have hj := ht.jumpsAt_call hs hc
    have hl := ht.labelAddress?_function hp hf
    cases hv : MemoryMap.predefined.lookup name with
    | some v =>
      rw [Rom.value_of_predefined hv] at hj
      exact hj
    | none =>
      rw [Rom.value_of_label hv hl] at hj
      exact hj
  · intro s n a name hs hn
    obtain ⟨ha, hu⟩ := ht.accessesAt_static hs hn
    have hp := Site.predefined_static hn
    cases hl : (Rom.link p.instructions).labelAddress? name with
    | some c =>
      rw [Rom.value_of_label hp hl] at ha
      refine ⟨c, ha, fun _ => rfl, ?_⟩
      intro hm
      rw [Rom.labelAddress?_eq_none_iff.2 hm] at hl
      cases hl
    | none =>
      obtain ⟨c, hc, hf⟩ := Rom.exists_variableAddress? hu hp hl
      rw [Rom.value_of_variable hp hl hc] at ha
      exact ⟨c, ha, fun hm => absurd hm (Rom.labelAddress?_eq_none_iff.1 hl), fun _ => ⟨hc, hf⟩⟩
  · intro x y c hx hy
    exact Rom.variableAddress?_injective hx hy

/-- A function named like the stack pointer, with its entry at 104. -/
def functionNamedSP : SourceUnit :=
  ⟨"Main", "function Sys.init 0\ncall SP 0\nlabel END\ngoto END\nfunction SP 1\nreturn"⟩

/-- A function with the symbol of a static, with its entry at 60. -/
def functionNamedStatic : SourceUnit := ⟨"Main", "push static 0\nfunction Main.0 1\nreturn"⟩

/-- The call of `SP` jumps to 0, the value of the predefined symbol. -/
theorem calls_of_functionNamedSP :
    ∃ p r, translate ⟨false, .always⟩ [functionNamedSP] = .ok p ∧ Rom.load p.text = .ok r ∧
      "SP" ∈ labels p.instructions ∧ r.labelAddress? "SP" = some 104 ∧ r.JumpsAt 100 0 := by
  obtain ⟨p, hp⟩ : ∃ p, translate ⟨false, .always⟩ [functionNamedSP] = .ok p := ⟨_, rfl⟩
  have ht := translated_of_translate hp
  obtain ⟨r, hr, hc, -⟩ := (calls_and_statics_of_translated hp).2
  have hs : Placed (pieces ⟨false, .always⟩ [functionNamedSP]) 53
      (.command ⟨⟨"Main", ⟨"Sys.init"⟩⟩, "call SP 0", .call "SP" 0⟩ ⟨1, 0⟩) :=
    (placed_of_pieceAt? (by rfl)).1
  have hf : Placed (pieces ⟨false, .always⟩ [functionNamedSP]) 104
      (.command ⟨⟨"Main", ⟨"SP"⟩⟩, "function SP 1", .function "SP" 1⟩ ⟨2, 0⟩) :=
    (placed_of_pieceAt? (by rfl)).1
  have hl := ht.labelAddress?_function hf rfl
  refine ⟨p, r, hp, hr, ?_, ?_, hc _ _ _ _ _ hs rfl _ _ _ _ hf rfl⟩
  · exact ht.mem_labels_of_function (mem_sites_of_mem_pieces hf.mem) rfl
  · rw [ht.eq_link_of_load hr]
    exact hl

/-- The labels of these programs are not apart: one is a predefined symbol, one a static. -/
theorem not_labelsApart :
    (∃ p, translate ⟨false, .always⟩ [functionNamedSP] = .ok p ∧
        ¬ LabelsApart [functionNamedSP] p) ∧
      ∃ p, translate ⟨false, .always⟩ [functionNamedStatic] = .ok p ∧
        ¬ LabelsApart [functionNamedStatic] p := by
  constructor
  · obtain ⟨p, hp⟩ : ∃ p, translate ⟨false, .always⟩ [functionNamedSP] = .ok p := ⟨_, rfl⟩
    refine ⟨p, hp, ?_⟩
    intro h
    have hs : (⟨⟨"Main", ⟨"SP"⟩⟩, "function SP 1", .function "SP" 1⟩ : Site) ∈
        sites [functionNamedSP] := by decide
    have hm := (translated_of_translate hp).mem_labels_of_function hs rfl
    exact absurd (h "SP" hm).1 (by decide)
  · obtain ⟨p, hp⟩ : ∃ p, translate ⟨false, .always⟩ [functionNamedStatic] = .ok p := ⟨_, rfl⟩
    refine ⟨p, hp, ?_⟩
    intro h
    have hs : (⟨⟨"Main", ⟨"Main.0"⟩⟩, "function Main.0 1", .function "Main.0" 1⟩ : Site) ∈
        sites [functionNamedStatic] := by decide
    have hu : (⟨⟨"Main", ⟨"Main"⟩⟩, "push static 0", .push .static 0⟩ : Site) ∈
        sites [functionNamedStatic] := by decide
    have hm := (translated_of_translate hp).mem_labels_of_function hs rfl
    exact (h "Main.0" hm).2 _ hu (by decide)

end HackVM
