import HackVM.Proofs.Assembler

/-!
# The written forms of instructions

Which lines are read as which instruction, told without the reader: a destination in any order of
its letters, a computation also backwards if it is commutative, a number with zeros in front,
blanks around each field. What is read is well formed, and exactly the well-formed instructions
are read back from their own text, so each line that is read says the same as the text of its
instruction.
-/

namespace HackVM

open Text

namespace Assembly

/-! ## Blanks and marks -/

/-- A character of a field: not blank, and none of the marks that end a field or begin another
form of instruction. -/
def isOperandChar (c : Char) : Bool := isFieldChar c && c != '(' && c != '@'

theorem Dest.isOperandChar_of_mem (t : Dest) : ∀ c ∈ t.letters, isOperandChar c = true := by
  cases t <;> exact List.all_eq_true.1 (by decide)

theorem Comp.isOperandChar_of_mem {c : Comp} {s : List Char} (h : s ∈ c.spellings) :
    ∀ x ∈ s, isOperandChar x = true := by
  have key : all.all (fun c => c.spellings.all (·.all isOperandChar)) = true := by
    decide +kernel
  exact List.all_eq_true.1 (List.all_eq_true.1 (List.all_eq_true.1 key c (mem_all c)) s h)

theorem Comp.spellings_ne_nil {c : Comp} {s : List Char} (h : s ∈ c.spellings) : s ≠ [] := by
  have key : all.all (fun c => c.spellings.all (!·.isEmpty)) = true := by decide +kernel
  have := List.all_eq_true.1 (List.all_eq_true.1 key c (mem_all c)) s h
  simpa using this

theorem Dest.letters_ne_nil (t : Dest) : t.letters ≠ [] := by cases t <;> decide

/-- The characters of a field with blanks around it. -/
theorem isBlank_or_isOperandChar {field : List Char}
    (h : ∀ c ∈ trim field, isOperandChar c = true) {c : Char} (hc : c ∈ field) :
    isBlank c = true ∨ isOperandChar c = true := by
  cases hb : isBlank c with
  | true => exact .inl rfl
  | false => exact .inr (h c (mem_trim hc hb))

/-- No mark stands in a field. -/
theorem ne_of_mem_field {field : List Char} (h : ∀ c ∈ trim field, isOperandChar c = true)
    {mark : Char} (hm : isBlank mark = false) (ho : isOperandChar mark = false) :
    ∀ c ∈ field, c ≠ mark := by
  intro c hc he
  rcases isBlank_or_isOperandChar h hc with hb | hb
  · rw [he, hm] at hb
    cases hb
  · rw [he, ho] at hb
    cases hb

/-! ## Fields -/

/-- A destination with the mark behind it, the letters in any order and blanks around them. -/
def SpellsDest : Option Dest → List Char → Prop
  | none, s => s = []
  | some t, s => ∃ field, s = field ++ ['='] ∧ t.letters.Perm (trim field)

/-- A jump with the mark in front of it and blanks around it. -/
def SpellsJump : Option Jump → List Char → Prop
  | none, s => s = []
  | some j, s => ∃ field, s = ';' :: field ∧ trim field = j.text

/-- One of the spellings of a computation, with blanks around it. -/
def SpellsComp (c : Comp) (s : List Char) : Prop := trim s ∈ c.spellings

theorem SpellsJump.ne_equals {jump : Option Jump} {s : List Char} (h : SpellsJump jump s) :
    ∀ c ∈ s, c ≠ '=' := by
  cases jump with
  | none =>
    intro c hc
    rw [show s = [] from h] at hc
    cases hc
  | some j =>
    obtain ⟨field, rfl, hf⟩ := h
    intro c hc
    rcases List.mem_cons.1 hc with rfl | hc
    · decide
    · rintro rfl
      have := j.isFieldChar_of_mem _ (hf ▸ mem_trim hc (by decide))
      revert this
      decide

theorem SpellsComp.ne_mark {c : Comp} {s : List Char} (h : SpellsComp c s) {mark : Char}
    (hm : isBlank mark = false) (ho : isOperandChar mark = false) : ∀ x ∈ s, x ≠ mark :=
  ne_of_mem_field (Comp.isOperandChar_of_mem h) hm ho

namespace Instruction

theorem spellsDest_of_readDestField {line rest : List Char} {dest : Option Dest}
    (h : readDestField line = .ok (dest, rest)) :
    ∃ d, line = d ++ rest ∧ SpellsDest dest d := by
  rw [readDestField] at h
  cases hc : cut? '=' line with
  | none =>
    rw [hc] at h
    cases h
    exact ⟨[], rfl, rfl⟩
  | some cut =>
    obtain ⟨field, back⟩ := cut
    rw [hc] at h
    dsimp only at h
    cases hr : Dest.read (trim field) with
    | error e =>
      rw [hr] at h
      cases h
    | ok t =>
      rw [hr] at h
      cases h
      refine ⟨field ++ ['='], ?_, field, rfl, ?_⟩
      · rw [eq_append_of_cut? hc]
        simp
      · exact Dest.read?_eq_some_iff.1 (found_eq_ok_iff.1 hr)

theorem readDestField_of_spellsDest {d rest : List Char} {dest : Option Dest}
    (h : SpellsDest dest d) (hr : ∀ c ∈ rest, c ≠ '=') :
    readDestField (d ++ rest) = .ok (dest, rest) := by
  cases dest with
  | none =>
    rw [show d = [] from h]
    exact readDestField_none hr
  | some t =>
    obtain ⟨field, rfl, hp⟩ := h
    have hf : ∀ c ∈ field, c ≠ '=' := by
      refine ne_of_mem_field ?_ (by decide) (by decide)
      intro c hc
      exact t.isOperandChar_of_mem c (hp.mem_iff.2 hc)
    have hd : Dest.read (trim field) = .ok t := found_eq_ok_iff.2 (Dest.read?_eq_some_iff.2 hp)
    rw [List.append_assoc, List.singleton_append, readDestField, cut?_append hf]
    simp only [hd, Except.map]

theorem spellsJump_of_readJumpField {rest field : List Char} {jump : Option Jump}
    (h : readJumpField rest = .ok (field, jump)) :
    ∃ j, rest = field ++ j ∧ SpellsJump jump j := by
  rw [readJumpField] at h
  cases hc : cut? ';' rest with
  | none =>
    rw [hc] at h
    cases h
    exact ⟨[], (List.append_nil _).symm, rfl⟩
  | some cut =>
    obtain ⟨front, back⟩ := cut
    rw [hc] at h
    dsimp only at h
    cases hr : Jump.read (trim back) with
    | error e =>
      rw [hr] at h
      cases h
    | ok j =>
      rw [hr] at h
      cases h
      exact ⟨';' :: back, eq_append_of_cut? hc, back, rfl,
        Jump.read?_eq_some_iff.1 (found_eq_ok_iff.1 hr)⟩

theorem readJumpField_of_spellsJump {field j : List Char} {jump : Option Jump}
    (h : SpellsJump jump j) (hf : ∀ c ∈ field, c ≠ ';') :
    readJumpField (field ++ j) = .ok (field, jump) := by
  cases jump with
  | none =>
    rw [show j = [] from h, List.append_nil, readJumpField, cut?_of_forall hf]
  | some k =>
    obtain ⟨back, rfl, ht⟩ := h
    have hk : Jump.read (trim back) = .ok k := found_eq_ok_iff.2 (Jump.read?_eq_some_iff.2 ht)
    rw [readJumpField, cut?_append hf]
    simp only [hk, Except.map]

/-! ## Whole lines -/

/-- The forms of a trimmed line, each with the instruction that it says. -/
inductive Spells : List Char → Instruction → Prop
  | comment (rest : List Char) :
    Spells ('/' :: '/' :: rest) (.comment (String.ofList (trim rest)))
  | label {name : String} :
    isSymbol name = true → Spells ('(' :: (name.toList ++ [')'])) (.label name)
  | value {digits : List Char} {n : Nat} :
    Digits digits n → n ≤ 32767 → Spells ('@' :: digits) (.load (.value n))
  | symbol {name : String} :
    isSymbol name = true → Spells ('@' :: name.toList) (.load (.symbol name))
  | compute {dest : Option Dest} {c : Comp} {jump : Option Jump} {d w j : List Char} :
    (dest.isNone && jump.isNone) = false → SpellsDest dest d → SpellsComp c w →
    SpellsJump jump j → Spells (d ++ (w ++ j)) (.compute dest c jump)

theorem spells_of_readLabel {rest : List Char} {i : Instruction}
    (h : readLabel ('(' :: rest) rest = .ok i) : Spells ('(' :: rest) i := by
  rw [readLabel] at h
  split at h
  · cases h
  · rename_i hl
    split at h
    · rename_i hs
      cases h
      have hr : rest = (String.ofList rest.dropLast).toList ++ [')'] := by
        rw [String.toList_ofList]
        exact (List.dropLast_append_getLast? _ (by simpa using hl)).symm
      have hname : isSymbol (String.ofList rest.dropLast) = true := by
        rwa [isSymbol, String.toList_ofList]
      have := Spells.label hname
      rwa [← hr] at this
    · cases h

theorem spells_of_readLoad {operand : List Char} {i : Instruction}
    (h : readLoad ('@' :: operand) operand = .ok i) : Spells ('@' :: operand) i := by
  rw [readLoad] at h
  by_cases hd : operand.head?.any Char.isDigit = true
  · rw [if_pos hd] at h
    cases hn : readNumber? operand with
    | none =>
      rw [hn] at h
      cases h
    | some n =>
      rw [hn] at h
      dsimp only at h
      split at h
      · rename_i hm
        cases h
        obtain ⟨-, hdigits | ⟨t, rfl, -⟩⟩ := readNumber?_eq_some_iff.1 hn
        · exact .value hdigits hm
        · cases hd
      · cases h
  · rw [if_neg hd] at h
    split at h
    · rename_i hs
      cases h
      have hname : isSymbol (String.ofList operand) = true := by
        rwa [isSymbol, String.toList_ofList]
      have := Spells.symbol hname
      rwa [String.toList_ofList] at this
    · cases h

theorem spells_of_readCompute {line : List Char} {i : Instruction}
    (h : readCompute line = .ok i) : Spells line i := by
  rw [readCompute] at h
  obtain ⟨⟨dest, rest⟩, hdest, h⟩ := bind_eq_ok_iff.1 h
  obtain ⟨⟨field, jump⟩, hjump, h⟩ := bind_eq_ok_iff.1 h
  dsimp only at hjump h
  by_cases hn : (dest.isNone && jump.isNone) = true
  · rw [if_pos hn] at h
    cases h
  · rw [if_neg hn] at h
    obtain ⟨comp, hcomp, h⟩ := bind_eq_ok_iff.1 h
    cases h
    obtain ⟨d, rfl, hd⟩ := spellsDest_of_readDestField hdest
    obtain ⟨j, rfl, hj⟩ := spellsJump_of_readJumpField hjump
    exact .compute (Bool.eq_false_iff.2 hn) hd
      (Comp.read?_eq_some_iff.1 (found_eq_ok_iff.1 hcomp)) hj

/-- What is read from a trimmed line is spelt by it. -/
theorem spells_of_readTrimmed {line : List Char} {i : Instruction}
    (h : readTrimmed line = .ok i) : Spells line i := by
  rw [readTrimmed.eq_def] at h
  split at h
  · cases h
    exact .comment _
  · exact spells_of_readLabel h
  · exact spells_of_readLoad h
  · exact spells_of_readCompute h

theorem readCompute_of_spells {dest : Option Dest} {c : Comp} {jump : Option Jump}
    {d w j : List Char} (he : (dest.isNone && jump.isNone) = false) (hd : SpellsDest dest d)
    (hw : SpellsComp c w) (hj : SpellsJump jump j) :
    readCompute (d ++ (w ++ j)) = .ok (compute dest c jump) := by
  have hrest : ∀ x ∈ w ++ j, x ≠ '=' := by
    intro x hx
    rcases List.mem_append.1 hx with hx | hx
    · exact hw.ne_mark (by decide) (by decide) x hx
    · exact hj.ne_equals x hx
  have hcomp : Comp.read (trim w) = .ok c := found_eq_ok_iff.2 (Comp.read?_eq_some_iff.2 hw)
  rw [readCompute, readDestField_of_spellsDest hd hrest]
  show Except.bind (readJumpField _) _ = _
  rw [readJumpField_of_spellsJump hj (hw.ne_mark (by decide) (by decide))]
  simp only [Except.bind, he]
  show Except.bind (Comp.read (trim w)) _ = _
  rw [hcomp]
  rfl

/-- A line that begins with none of the marks of the other forms computes. -/
theorem readTrimmed_of_head {line : List Char}
    (h : ∀ c ∈ line.head?, isOperandChar c = true) : readTrimmed line = readCompute line := by
  rw [readTrimmed.eq_def]
  split
  · exact absurd (h '/' rfl) (by decide)
  · exact absurd (h '(' rfl) (by decide)
  · exact absurd (h '@' rfl) (by decide)
  · rfl

/-- A trimmed compute instruction begins with a character of a field. -/
theorem isOperandChar_head {dest : Option Dest} {c : Comp} {d w j : List Char}
    (hd : SpellsDest dest d) (hw : SpellsComp c w) (ht : IsTrimmed (d ++ (w ++ j))) :
    ∀ x ∈ (d ++ (w ++ j)).head?, isOperandChar x = true := by
  intro x hx
  have hb : isBlank x = false := ht.1 x hx
  have hfirst : ∀ {field rest : List Char}, (∀ c ∈ trim field, isOperandChar c = true) →
      trim field ≠ [] → x ∈ (field ++ rest).head? → isOperandChar x = true := by
    intro field rest hf hne hx
    cases field with
    | nil => exact absurd rfl hne
    | cons a field =>
      cases hx
      exact hf x (mem_trim (List.mem_cons_self ..) hb)
  cases dest with
  | none =>
    rw [show d = [] from hd, List.nil_append] at hx
    exact hfirst (Comp.isOperandChar_of_mem hw) (Comp.spellings_ne_nil hw) hx
  | some t =>
    obtain ⟨field, rfl, hp⟩ := hd
    rw [List.append_assoc] at hx
    refine hfirst ?_ ?_ hx
    · intro c hc
      exact t.isOperandChar_of_mem c (hp.mem_iff.2 hc)
    · intro he
      rw [he] at hp
      exact t.letters_ne_nil hp.eq_nil

theorem readTrimmed_digits {digits : List Char} {n : Nat} (hd : Digits digits n)
    (hn : n ≤ maxAddress) : readTrimmed ('@' :: digits) = .ok (load (.value n)) := by
  have hhead : digits.head?.any Char.isDigit = true := by
    obtain ⟨c, cs, rfl⟩ := List.exists_cons_of_ne_nil hd.1
    exact hd.2.1 c (List.mem_cons_self ..)
  have hw : n ≤ maxWord := Nat.le_trans hn (by decide)
  rw [readTrimmed, readLoad, if_pos hhead, readNumber?_eq_some_iff.2 ⟨hw, .inl hd⟩]
  exact if_pos hn

/-- A trimmed line is read as the instruction that it spells. -/
theorem readTrimmed_eq_ok_iff {line : List Char} {i : Instruction} (ht : IsTrimmed line) :
    readTrimmed line = .ok i ↔ Spells line i := by
  refine ⟨spells_of_readTrimmed, fun h => ?_⟩
  cases h with
  | comment rest => rfl
  | label hs => simpa [text] using readTrimmed_label hs
  | value hd hn => exact readTrimmed_digits hd hn
  | symbol hs => simpa [text, Address.text] using readTrimmed_symbol hs
  | compute he hd hw hj =>
    rw [readTrimmed_of_head (isOperandChar_head hd hw ht)]
    exact readCompute_of_spells he hd hw hj

theorem read_eq_ok_iff {line : String} {i : Instruction} :
    read line = .ok i ↔ Spells (trim line.toList) i := readTrimmed_eq_ok_iff (trim_isTrimmed _)

example : read " @0017" = .ok (load (.value 17)) ∧
    read "@32768" = .error ⟨"@32768", .addressTooLarge⟩ := ⟨rfl, rfl⟩

/-- An instruction is read back from its text just if it is well formed. Whatever is read is well
formed, so a line says the same as the text of its instruction, and what a line says is what it
spells. -/
theorem read_text_iff_wellFormed :
    (∀ i : Instruction, read i.text = .ok i ↔ i.WellFormed) ∧
      (∀ line i, read line = .ok i → i.WellFormed ∧ read line = read i.text) ∧
      ∀ line i, read line = .ok i ↔ Spells (trim line.toList) i := by
  refine ⟨fun i => ⟨wellFormed_of_read, read_text⟩, ?_, fun line i => read_eq_ok_iff⟩
  intro line i h
  have hi := wellFormed_of_read h
  exact ⟨hi, h.trans (read_text hi).symm⟩

/-- A destination out of order and a sum that is written backwards. -/
theorem read_permuted_destination :
    read " DMA = 1+M ;JLE" = .ok (compute (some .amd) (.incY .m) (some .le)) ∧
      read " DMA = 1+M ;JLE" = read "AMD=M+1;JLE" := by
  have hr : read " DMA = 1+M ;JLE" = .ok (compute (some .amd) (.incY .m) (some .le)) := rfl
  exact ⟨hr, (read_text_iff_wellFormed.2.1 _ _ hr).2⟩

end Instruction

end Assembly

end HackVM
