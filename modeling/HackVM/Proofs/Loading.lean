import HackVM.Proofs.Accepted

/-!
# Loading an accepted program

Nothing is lost through text: the lines of a printed program are read back as its instructions,
and loading the text gives the program memory of these instructions. There each executable
instruction has become a word in which only a symbol is replaced by a number.
-/

namespace HackVM

open Assembly Instruction Text

namespace Rom

/-! ## Comments do not count -/

theorem labelsFrom_bare (words : Nat) (code : List Instruction) :
    labelsFrom words (bare code) = labelsFrom words code := by
  induction code generalizing words with
  | nil => rfl
  | cons i code ih =>
    cases i with
    | comment t =>
      rw [show bare (comment t :: code) = bare code from rfl, ih]
      rfl
    | label name =>
      rw [show bare (label name :: code) = label name :: bare code from rfl, labelsFrom, ih]
      rfl
    | load a =>
      rw [show bare (.load a :: code) = .load a :: bare code from rfl]
      exact ih (words + 1)
    | compute dest comp jump =>
      rw [show bare (compute dest comp jump :: code) = compute dest comp jump :: bare code from rfl]
      exact ih (words + 1)

/-- A filter that looks at no comment does not see that comments are left out. -/
theorem filterMap_bare {α : Type} {f : Instruction → Option α}
    (hf : ∀ t, f (comment t) = none) (code : List Instruction) :
    (bare code).filterMap f = code.filterMap f := by
  induction code with
  | nil => rfl
  | cons i code ih =>
    cases i with
    | comment t =>
      rw [show bare (comment t :: code) = bare code from rfl, ih, List.filterMap_cons_none (hf t)]
    | label name => rw [show bare (label name :: code) = label name :: bare code from rfl,
        List.filterMap_cons, List.filterMap_cons, ih]
    | load a => rw [show bare (.load a :: code) = .load a :: bare code from rfl,
        List.filterMap_cons, List.filterMap_cons, ih]
    | compute dest comp jump =>
      rw [show bare (compute dest comp jump :: code) = compute dest comp jump :: bare code from rfl,
        List.filterMap_cons, List.filterMap_cons, ih]

theorem link_bare (code : List Instruction) : link (bare code) = link code := by
  have hu : (bare code).filterMap used? = code.filterMap used? := filterMap_bare (fun _ => rfl) code
  have ho : ∀ value, (bare code).filterMap (op? value) = code.filterMap (op? value) :=
    fun value => filterMap_bare (fun _ => rfl) code
  simp only [link, labelsFrom_bare, variableNames, hu, ho]

end Rom

theorem Assembly.Instruction.labels_bare (code : List Instruction) :
    labels (bare code) = labels code := Rom.filterMap_bare (fun _ => rfl) code

/-- The text of an accepted program loads, as the program memory of its instructions. -/
theorem Translated.load_text {o : Options} {units : List SourceUnit} {p : Program}
    (h : Translated o units p) : Rom.load p.text = .ok (Rom.link p.instructions) := by
  have hr : Rom.readLines p.text = .ok (bare p.instructions) :=
    Rom.readLines_render (fun i hi => (h.wellFormed_of_mem hi).1)
      fun i hi => (h.wellFormed_of_mem hi).2
  have hd : firstRepeated (labels (bare p.instructions)) = none := by
    rw [labels_bare]
    exact firstRepeated_eq_none_iff.2 h.labels_nodup
  rw [Rom.load, hr]
  show (Except.bind (.ok (bare p.instructions)) _) = _
  simp only [Except.bind, hd, Rom.link_bare]
  rfl

/-- There is no other program memory for the text. -/
theorem Translated.eq_link_of_load {o : Options} {units : List SourceUnit} {p : Program} {r : Rom}
    (h : Translated o units p) (hr : Rom.load p.text = .ok r) : r = Rom.link p.instructions :=
  Except.ok.inj (hr.symm.trans h.load_text)

theorem Translated.size_link {o : Options} {units : List SourceUnit} {p : Program}
    (_ : Translated o units p) : (Rom.link p.instructions).size = p.executableCount :=
  Rom.size_link p.instructions

/-! ## Words -/

/-- The word of an executable instruction when `value` gives the symbols their numbers: a
number stays, and so do the fields of a compute instruction. -/
inductive Becomes (value : String → Word) : Instruction → Op → Prop
  | number (w : Word) : Becomes value (load (.value w.toNat)) (.load w)
  | symbol (name : String) : Becomes value (load (.symbol name)) (.load (value name))
  | compute (dest : Option Dest) (comp : Comp) (jump : Option Jump) :
    Becomes value (compute dest comp jump) (.compute dest comp jump)

theorem becomes_of_op? {value : String → Nat} {i : Instruction} (hi : i.WellFormed) {w : Op}
    (h : Rom.op? value i = some w) : Becomes (fun name => BitVec.ofNat 16 (value name)) i w := by
  cases i with
  | load a =>
    cases a with
    | value n =>
      have hn : n ≤ 32767 := hi
      have ht : (BitVec.ofNat 16 n).toNat = n := by
        rw [BitVec.toNat_ofNat]
        omega
      cases h
      have hb : Becomes (fun name => BitVec.ofNat 16 (value name))
          (.load (.value (BitVec.ofNat 16 n).toNat)) (.load (BitVec.ofNat 16 n)) := .number _
      rwa [ht] at hb
    | symbol name =>
      cases h
      exact .symbol name
  | compute dest comp jump =>
    cases h
    exact .compute dest comp jump
  | label name => cases h
  | comment t => cases h

/-- A program memory keeps the order of the executable instructions. -/
theorem filterMap_op?_getElem? {value : String → Nat} {code : List Instruction} {k : Nat} :
    (code.filterMap (Rom.op? value))[k]? =
      ((code.filter (·.isExecutable))[k]?).bind (Rom.op? value) := by
  induction code generalizing k with
  | nil => rfl
  | cons i code ih =>
    have hs := Rom.isSome_op? value i
    cases ho : Rom.op? value i with
    | none =>
      rw [ho] at hs
      rw [List.filterMap_cons_none ho, List.filter_cons_of_neg (by rw [← hs]; decide), ih]
    | some w =>
      rw [ho] at hs
      rw [List.filterMap_cons_some ho, List.filter_cons_of_pos hs.symm]
      cases k with
      | zero => simp [ho]
      | succ k => simpa using ih

/-- Every accepted program is read back from its text line by line, and its text loads: the
words are the executable instructions in order, with symbols replaced by numbers. -/
theorem text_of_translated {o : Options} {units : List SourceUnit} {p : Program}
    (h : translate o units = .ok p) :
    (lines p.text.toList).mapM (fun l => Instruction.read (String.ofList l)) =
        .ok p.instructions ∧
      (p.executableCount ≤ maxWord → ∃ r, Rom.load p.text = .ok r ∧
        r.size = p.executableCount ∧
        ∃ value : String → Word, ∀ (k : Nat) (i : Instruction),
          (p.instructions.filter (·.isExecutable))[k]? = some i →
            ∃ w, r.code[k]? = some w ∧ Becomes value i w) := by
  have ht := translated_of_translate h
  refine ⟨mapM_read_lines (fun i hi => (ht.wellFormed_of_mem hi).1)
    fun i hi => (ht.wellFormed_of_mem hi).2, fun _ => ?_⟩
  let r := Rom.link p.instructions
  refine ⟨r, ht.load_text, ht.size_link,
    fun name => BitVec.ofNat 16 (Rom.resolve r.labels r.cells name), fun k i hk => ?_⟩
  have hm := List.mem_filter.1 (List.mem_of_getElem? hk)
  obtain ⟨w, hw⟩ : ∃ w, Rom.op? (Rom.resolve r.labels r.cells) i = some w := by
    rw [← Option.isSome_iff_exists, Rom.isSome_op?]
    exact hm.2
  refine ⟨w, ?_, becomes_of_op? (ht.wellFormed_of_mem hm.1).1 hw⟩
  have hc : r.code = (p.instructions.filterMap
      (Rom.op? (Rom.resolve r.labels r.cells))).toArray := rfl
  rw [hc, List.getElem?_toArray, filterMap_op?_getElem?, hk]
  exact hw

/-- A program of one static and a loop, with a comment and odd blanks in its source. -/
theorem text_of_translated_loop :
    ∃ p r, translate ⟨true, .auto⟩ [⟨"Main", "label L // start\n push\tstatic +7\r\ngoto L"⟩] =
      .ok p ∧ Rom.load p.text = .ok r ∧ r.size = p.executableCount := by
  have h : ∃ p, translate ⟨true, .auto⟩
      [⟨"Main", "label L // start\n push\tstatic +7\r\ngoto L"⟩] = .ok p ∧
      p.executableCount ≤ maxWord := ⟨_, rfl, by decide⟩
  obtain ⟨p, hp, hc⟩ := h
  obtain ⟨r, hr, hs, -⟩ := (text_of_translated hp).2 hc
  exact ⟨p, r, hp, hr, hs⟩

end HackVM
