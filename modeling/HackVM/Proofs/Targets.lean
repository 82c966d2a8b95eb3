import HackVM.Proofs.Capture
import HackVM.Proofs.Simulation

/-!
# Where jumps go

In program memory a label is the number of words in front of its declaration, which is the
address of the first word behind it. So a jump of the source goes to the label that is declared
in its scope, a call to the entry of its function, and the two branches of a comparison to
words of the comparison. What a call pushes is the address of the word behind its jump.
-/

namespace HackVM

open Assembly Instruction Sequence

/-! ## Declarations -/

/-- The label is declared with `a` words in front of it. -/
def Program.DeclaresAt (p : Program) (name : String) (a : Nat) : Prop :=
  ∃ front back, p.instructions = front ++ label name :: back ∧ words front = a

theorem mem_labels_iff {code : List Instruction} {name : String} :
    name ∈ labels code ↔ label name ∈ code := by
  rw [labels, List.mem_filterMap]
  constructor
  · rintro ⟨i, hi, hn⟩
    cases i with
    | label n =>
      cases hn
      exact hi
    | load x => cases hn
    | compute dest comp jump => cases hn
    | comment t => cases hn
  · exact fun h => ⟨_, h, rfl⟩

namespace Rom

/-- The address of a label is the number of words in front of its one declaration. -/
theorem labelAddress?_link_iff {code : List Instruction} (h : (Instruction.labels code).Nodup)
    {name : String} {a : Nat} :
    (link code).labelAddress? name = some a ↔
      ∃ front back, code = front ++ label name :: back ∧ words front = a := by
  constructor
  · intro ha
    have hm : name ∈ Instruction.labels code := by
      refine Decidable.byContradiction fun hn => ?_
      rw [labelAddress?_eq_none_iff.2 hn] at ha
      cases ha
    obtain ⟨front, back, rfl⟩ := List.append_of_mem (mem_labels_iff.1 hm)
    rw [labelAddress?_link h] at ha
    exact ⟨front, back, rfl, Option.some.inj ha⟩
  · rintro ⟨front, back, rfl, rfl⟩
    exact labelAddress?_link h

end Rom

/-! ## Words of interest -/

/-- At `a` stands a jump to `target`, which is taken if the value of `comp` meets the condition. -/
def Rom.BranchesAt (r : Rom) (a : Nat) (comp : Comp) (jump : Jump) (target : Word) : Prop :=
  r.code[a]? = some (.load target) ∧ r.code[a + 1]? = some (.compute none comp (some jump))

/-- From `a` on the word is loaded and pushed. -/
def Rom.PushesAt (r : Rom) (a : Nat) (w : Word) : Prop :=
  r.code[a]? = some (.load w) ∧ r.HoldsAt (a + 1) (assign .d (.y .a) :: pushD)

/-- A call of the function begins at `a`: a command of the source, or the one in the bootstrap
behind the four words that set the stack pointer. -/
inductive CallAt (o : Options) (units : List SourceUnit) : Nat → String → Prop
  | command {s : Site} {n : Numbering} {a : Nat} {name : String} {args : Nat} :
    Placed (pieces o units) a (.command s n) → s.command = .call name args → CallAt o units a name
  | bootstrap {a : Nat} :
    Placed (pieces o units) a .bootstrap → CallAt o units (a + 4) MemoryMap.entryPoint

namespace Translated

variable {o : Options} {units : List SourceUnit} {p : Program} {name : String} {a : Nat}

/-- A declared symbol that is not predefined stands for the address of its label. -/
theorem declaresAt_value (h : Translated o units p) (hc : p.executableCount ≤ maxWord)
    (hn : name ∈ labels p.instructions) (hp : MemoryMap.predefined.lookup name = none) :
    p.DeclaresAt name ((Rom.link p.instructions).value name).toNat := by
  obtain ⟨front, back, he⟩ := List.append_of_mem (mem_labels_iff.1 hn)
  have ha := (Rom.labelAddress?_link_iff h.labels_nodup).2 ⟨front, back, he, rfl⟩
  have hw : words front ≤ maxWord := by
    have hs : p.executableCount = words front + words (label name :: back) := by
      rw [← words_append, ← he]
      rfl
    omega
  rw [Rom.value_of_label hp ha, toNat_ofNat_of_le hw]
  exact ⟨front, back, he, rfl⟩

/-- The words behind a declaration are in program memory from its address on, to the end. -/
theorem holdsAt_back (h : Translated o units p) {front back : List Instruction}
    (he : p.instructions = front ++ label name :: back) :
    (Rom.link p.instructions).HoldsAt (words front) back ∧
      (Rom.link p.instructions).size = words front + words back := by
  have hn := h.labels_nodup
  constructor
  · rw [he] at hn ⊢
    exact (Rom.holdsAt_link hn).2
  · rw [Rom.size_link, he]
    show words (front ++ label name :: back) = _
    rw [words_append, words_label]

/-- The label of a label command is declared, under the name of its scope. -/
theorem mem_labels_of_label (h : Translated o units p) {scope : Scope}
    (hd : ∃ t ∈ sites units, t.command = .label name ∧ t.place.scope.name = scope.name) :
    scope.qualify name ∈ labels p.instructions := by
  obtain ⟨t, ht, hc, hs⟩ := hd
  obtain ⟨n, hn⟩ := exists_mem_pieces (o := o) ht
  rw [h.instructions]
  refine mem_labels_instructions.2 ⟨_, hn, ?_⟩
  rw [code_of_command hc rfl, ← Scope.qualify_congr hs]
  exact List.mem_singleton_self _

/-! ## The jumps of each command -/

theorem jumpsAt_goto (h : Translated o units p) {s : Site} {n : Numbering}
    (hs : Placed (pieces o units) a (.command s n)) (hc : s.command = .goto name) :
    (Rom.link p.instructions).JumpsAt a
      ((Rom.link p.instructions).value (s.place.scope.qualify name)) := by
  have hh := h.holdsAt hs
  rw [code_of_command hc rfl] at hh
  exact Rom.jumpsAt_of_holdsAt hh

/-- A conditional jump takes the value off the stack first. -/
theorem branchesAt_ifGoto (h : Translated o units p) {s : Site} {n : Numbering}
    (hs : Placed (pieces o units) a (.command s n)) (hc : s.command = .ifGoto name) :
    (Rom.link p.instructions).BranchesAt (a + words popD) .x .ne
      ((Rom.link p.instructions).value (s.place.scope.qualify name)) := by
  have hh := h.holdsAt hs
  rw [code_of_command hc rfl, Rom.holdsAt_append] at hh
  exact ⟨hh.2.1, hh.2.2.1⟩

/-- The code of a call, wherever it comes from. -/
theorem holdsAt_callAt (h : Translated o units p) (hca : CallAt o units a name) :
    ∃ n args, (Rom.link p.instructions).HoldsAt a (Expansion.call n name args) ∧
      a + words (Expansion.call n name args) ≤ p.executableCount := by
  rw [h.executableCount_eq]
  cases hca with
  | @command s n a name args hs hc =>
    have hh := h.holdsAt hs
    have hl := hs.add_size_le
    rw [Piece.size] at hl
    rw [code_of_command hc rfl] at hh hl
    exact ⟨n, args, hh, hl⟩
  | bootstrap hs =>
    have hh := h.holdsAt hs
    have hl := hs.add_size_le
    rw [Piece.code, Expansion.bootstrap, Rom.holdsAt_append] at hh
    exact ⟨.start, 0, hh.2, hl⟩

/-- A call pushes the address of the word behind its jump. -/
theorem pushesAt_callAt (h : Translated o units p) (hc : p.executableCount ≤ maxWord)
    (hca : CallAt o units a name) :
    ∃ back, (Rom.link p.instructions).PushesAt a back ∧
      (Rom.link p.instructions).JumpsAt (a + 47) ((Rom.link p.instructions).value name) ∧
      back.toNat = a + 47 + 2 := by
  obtain ⟨n, args, hh, hl⟩ := h.holdsAt_callAt hca
  have hw : words (Expansion.call n name args) = 49 := rfl
  rw [Expansion.call_eq, Rom.holdsAt_append, Expansion.words_openFrame, Rom.holdsAt_append] at hh
  obtain ⟨hopen, hjump, hback, -⟩ := hh
  have hv : (Rom.link p.instructions).value (n.returnLabel name) = BitVec.ofNat 16 (a + 49) :=
    Rom.value_of_label (lookup_predefined_of_mem (.inl rfl) (dollar_mem_returnLabel n name)) hback
  refine ⟨_, ⟨hopen.1, ?_⟩, Rom.jumpsAt_of_holdsAt hjump, ?_⟩
  · rw [Expansion.openFrame, Rom.holdsAt_append, Rom.holdsAt_append, Rom.holdsAt_append] at hopen
    exact hopen.1.1.1.2
  · show ((Rom.link p.instructions).value (n.returnLabel name)).toNat = _
    rw [hv, toNat_ofNat_of_le (by omega)]

/-- A comparison has two jumps, and both go forward to words of its own. -/
theorem branchesAt_comparison (h : Translated o units p) (hc : p.executableCount ≤ maxWord)
    {s : Site} {n : Numbering} (hs : Placed (pieces o units) a (.command s n))
    {op : ArithmeticOp} {j : Jump} (ho : s.command = .arithmetic op)
    (hj : op.comparison? = some j) :
    ∃ t e, (Rom.link p.instructions).BranchesAt (a + 11) .x j t ∧
      (Rom.link p.instructions).JumpsAt (a + 14) e ∧
      a < t.toNat ∧ t.toNat < e.toNat ∧ e.toNat < a + (Piece.command s n).size := by
  have hx : s.command.expand s.place n = .ok (Expansion.comparison n j) := by
    rw [ho]
    cases op <;> cases hj <;> rfl
  have hh := h.holdsAt hs
  have hl := hs.add_size_le
  rw [← h.executableCount_eq] at hl
  have hz : (Piece.command s n).size = 22 := by
    rw [Piece.size, code_command hx]
    rfl
  rw [code_command hx, Expansion.comparison, Rom.holdsAt_append, Rom.holdsAt_append] at hh
  obtain ⟨⟨-, hload, hbranch, -, hskip, hgo, htrue, -, hend, -⟩, -⟩ := hh
  have ht : (Rom.link p.instructions).value n.trueLabel = BitVec.ofNat 16 (a + 16) :=
    Rom.value_of_label (lookup_predefined_of_mem (.inl rfl) (dollar_mem_trueLabel n)) htrue
  have he : (Rom.link p.instructions).value n.endLabel = BitVec.ofNat 16 (a + 17) :=
    Rom.value_of_label (lookup_predefined_of_mem (.inl rfl) (dollar_mem_endLabel n)) hend
  refine ⟨_, _, ⟨hload, hbranch⟩, ⟨hskip, hgo⟩, ?_⟩
  show a < ((Rom.link p.instructions).value n.trueLabel).toNat ∧
    ((Rom.link p.instructions).value n.trueLabel).toNat <
      ((Rom.link p.instructions).value n.endLabel).toNat ∧
    ((Rom.link p.instructions).value n.endLabel).toNat < _
  rw [ht, he, toNat_ofNat_of_le (by omega), toNat_ofNat_of_le (by omega)]
  omega

end Translated

variable {o : Options} {units : List SourceUnit} {p : Program}

/-- Every jump of an accepted program goes to what it names. The labels of program memory are
the declared ones, each with the number of words in front of it; `goto` and `if-goto` load the
address behind the label that is declared in a scope of the same name; a call loads the address
behind the entry of its function and pushes the address of the word behind its jump; and both
branches of a comparison stay inside the words of the comparison. -/
theorem targets_of_translated (h : translate o units = .ok p)
    (hc : p.executableCount ≤ maxWord) :
    p.instructions = instructions o (pieces o units) ∧
    ∃ r, Rom.load p.text = .ok r ∧
      (∀ name a, r.labelAddress? name = some a ↔ p.DeclaresAt name a) ∧
      (∀ front name back, p.instructions = front ++ label name :: back →
        r.HoldsAt (words front) back ∧ r.size = words front + words back) ∧
      (∀ a s n name, Placed (pieces o units) a (.command s n) →
        (∃ t ∈ sites units, t.command = .label name ∧
          t.place.scope.name = s.place.scope.name) →
        (s.command = .goto name →
          ∃ w, r.JumpsAt a w ∧ p.DeclaresAt (s.place.scope.qualify name) w.toNat) ∧
        (s.command = .ifGoto name →
          ∃ w, r.BranchesAt (a + words popD) .x .ne w ∧
            p.DeclaresAt (s.place.scope.qualify name) w.toNat)) ∧
      (∀ a name, CallAt o units a name →
        ∃ back target, r.PushesAt a back ∧ r.JumpsAt (a + 47) target ∧
          back.toNat = a + 47 + 2 ∧
          ((∃ t ∈ sites units, ∃ k, t.command = .function name k) →
            MemoryMap.predefined.lookup name = none → p.DeclaresAt name target.toNat)) ∧
      ∀ a s n op j, Placed (pieces o units) a (.command s n) → s.command = .arithmetic op →
        op.comparison? = some j →
        ∃ t e, r.BranchesAt (a + 11) .x j t ∧ r.JumpsAt (a + 14) e ∧
          a < t.toNat ∧ t.toNat < e.toNat ∧ e.toNat < a + (Piece.command s n).size := by
  have ht := translated_of_translate h
  refine ⟨ht.instructions, Rom.link p.instructions, ht.load_text, fun name a =>
    Rom.labelAddress?_link_iff ht.labels_nodup, fun front name back => ht.holdsAt_back, ?_, ?_,
    fun a s n op j hs => ht.branchesAt_comparison hc hs⟩
  · intro a s n name hs hd
    have hq := ht.declaresAt_value hc (ht.mem_labels_of_label hd)
      (lookup_predefined_of_mem (.inl rfl) (dollar_mem_qualify _ _))
    exact ⟨fun hg => ⟨_, ht.jumpsAt_goto hs hg, hq⟩, fun hg => ⟨_, ht.branchesAt_ifGoto hs hg, hq⟩⟩
  · intro a name hca
    obtain ⟨back, hpush, hjump, hback⟩ := ht.pushesAt_callAt hc hca
    refine ⟨back, _, hpush, hjump, hback, ?_⟩
    rintro ⟨t, hs, k, hk⟩ hp
    exact ht.declaresAt_value hc (ht.mem_labels_of_function hs hk) hp

/-- A unit with a jump of every kind. Its last line is the label of two of them, at 147. -/
def jumpingUnit : SourceUnit :=
  ⟨"Main", "function Sys.init 0\npush constant 1\npush constant 2\nlt\nif-goto L\n" ++
    "call Sys.init 0\ngoto L\nlabel L"⟩

/-- The jump goes to the end of program memory, where its label is. -/
theorem targets_of_jumpingUnit :
    ∃ p r w, translate ⟨false, .always⟩ [jumpingUnit] = .ok p ∧ p.executableCount ≤ maxWord ∧
      Rom.load p.text = .ok r ∧ r.JumpsAt 145 w ∧ p.DeclaresAt "Sys.init$L" w.toNat := by
  obtain ⟨p, hp⟩ : ∃ p, translate ⟨false, .always⟩ [jumpingUnit] = .ok p := ⟨_, rfl⟩
  have hg : Placed (pieces ⟨false, .always⟩ [jumpingUnit]) 145
      (.command ⟨⟨"Main", ⟨"Sys.init"⟩⟩, "goto L", .goto "L"⟩ ⟨2, 1⟩) :=
    (placed_of_pieceAt? (by rfl)).1
  have hl : (⟨⟨"Main", ⟨"Sys.init"⟩⟩, "label L", .label "L"⟩ : Site) ∈ sites [jumpingUnit] := by
    decide
  have hc : p.executableCount ≤ maxWord := by
    rw [(translated_of_translate hp).executableCount_eq]
    decide
  obtain ⟨-, r, hr, -, -, hj, -⟩ := targets_of_translated hp hc
  obtain ⟨w, hw, hd⟩ := (hj _ _ _ "L" hg ⟨_, hl, rfl, rfl⟩).1 rfl
  exact ⟨p, r, w, hp, hc, hr, hw, hd⟩

end HackVM
