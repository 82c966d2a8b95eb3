import HackVM.Machine.Rom

/-!
# Instructions and their text

Printing an instruction and reading the text gives the instruction back, provided that it is
well formed: its number has fifteen bits, its symbol is one, it has an effect, its comment
begins and ends with a character that is not blank. Printing a program one instruction a line
and reading it line by line gives the program back if no comment runs over a line; loading the
text gives the program memory of the instructions, comments left out.
-/

namespace HackVM

open Text

/-! ## Characters -/

theorem toNat_of_isAlphanum {c : Char} (h : c.isAlphanum = true) :
    0x30 ≤ c.toNat ∧ c.toNat ≤ 0x7A := by
  have hu : c.isUpper = true → 65 ≤ c.toNat ∧ c.toNat ≤ 90 := fun h => of_decide_eq_true h
  have hl : c.isLower = true → 97 ≤ c.toNat ∧ c.toNat ≤ 122 := fun h =>
    (Bool.and_eq_true_iff.1 h).imp of_decide_eq_true of_decide_eq_true
  have hd : c.isDigit = true → 48 ≤ c.toNat ∧ c.toNat ≤ 57 := fun h =>
    (Bool.and_eq_true_iff.1 h).imp of_decide_eq_true of_decide_eq_true
  have hs : (c.isUpper || c.isLower || c.isDigit) = true := h
  rw [Bool.or_eq_true, Bool.or_eq_true] at hs
  rcases hs with (h | h) | h
  · have := hu h
    omega
  · have := hl h
    omega
  · have := hd h
    omega

theorem isBlank_of_isSymbolChar {c : Char} (h : isSymbolChar c = true) : isBlank c = false := by
  simp only [isSymbolChar, Bool.or_eq_true, beq_iff_eq] at h
  rcases h with (((h | rfl) | rfl) | rfl) | rfl
  · have := toNat_of_isAlphanum h
    simp [isBlank, blankRanges]
    omega
  all_goals decide

theorem isSymbolChar_of_mem {name : String} (h : isSymbol name = true) :
    ∀ c ∈ name.toList, isSymbolChar c = true := (isSymbolText_iff.1 h).2.1

theorem isSymbolChar_of_mem_decimal {n : Nat} {c : Char} (h : c ∈ (decimal n).toList) :
    isSymbolChar c = true := isSymbolChar_of_isDigit (isDigit_of_mem_decimal h)

/-- A text without blanks is trimmed. -/
theorem Text.isTrimmed_of_forall {s : List Char} (h : ∀ c ∈ s, isBlank c = false) :
    IsTrimmed s :=
  ⟨fun c hc => h c (List.mem_of_head? hc), fun c hc => h c (List.mem_of_getLast? hc)⟩

namespace Assembly

/-! ## The fields of a compute instruction -/

/-- Not blank, and not one of the marks that end a field or begin a comment. -/
def isFieldChar (c : Char) : Bool := !isBlank c && c != '=' && c != ';' && c != '/'

theorem Dest.isFieldChar_of_mem (t : Dest) : ∀ c ∈ t.letters, isFieldChar c = true := by
  cases t <;> exact List.all_eq_true.1 (by decide)

theorem Comp.isFieldChar_of_mem (c : Comp) : ∀ x ∈ c.text, isFieldChar x = true := by
  have key : all.all (fun c => c.text.all isFieldChar) = true := by decide +kernel
  exact List.all_eq_true.1 (List.all_eq_true.1 key c (mem_all c))

theorem Jump.isFieldChar_of_mem (j : Jump) : ∀ c ∈ j.text, isFieldChar c = true := by
  cases j <;> exact List.all_eq_true.1 (by decide)

theorem trim_of_field {s : List Char} (h : ∀ c ∈ s, isFieldChar c = true) : trim s = s :=
  trim_of_isTrimmed (isTrimmed_of_forall fun c hc => by have := h c hc; simp_all [isFieldChar])

theorem Dest.read_letters (t : Dest) : Dest.read (trim t.letters) = .ok t := by
  rw [trim_of_field t.isFieldChar_of_mem, Dest.read, Dest.read?_letters, found]

theorem Comp.read_text (c : Comp) : Comp.read (trim c.text) = .ok c := by
  rw [trim_of_field c.isFieldChar_of_mem, Comp.read, Comp.read?_text, found]

theorem Jump.read_text (j : Jump) : Jump.read (trim j.text) = .ok j := by
  rw [trim_of_field j.isFieldChar_of_mem, Jump.read, Jump.read?_text, found]

/-- A number of fifteen bits, or a symbol. -/
def Address.WellFormed : Address → Prop
  | value n => n ≤ maxAddress
  | symbol name => isSymbol name = true

namespace Instruction

theorem readDestField_some (t : Dest) (rest : List Char) :
    readDestField (t.letters ++ '=' :: rest) = .ok (some t, rest) := by
  have h : ∀ c ∈ t.letters, c ≠ '=' := fun c hc => by
    have := t.isFieldChar_of_mem c hc
    simp_all [isFieldChar]
  rw [readDestField, cut?_append h]
  simp only [Dest.read_letters, Except.map]

theorem readDestField_none {line : List Char} (h : ∀ c ∈ line, c ≠ '=') :
    readDestField line = .ok (none, line) := by
  rw [readDestField, cut?_of_forall h]

theorem readJumpField_some (c : Comp) (j : Jump) :
    readJumpField (c.text ++ ';' :: j.text) = .ok (c.text, some j) := by
  have h : ∀ x ∈ c.text, x ≠ ';' := fun x hx => by
    have := c.isFieldChar_of_mem x hx
    simp_all [isFieldChar]
  rw [readJumpField, cut?_append h]
  simp only [Jump.read_text, Except.map]

theorem readJumpField_none (c : Comp) : readJumpField c.text = .ok (c.text, none) := by
  have h : ∀ x ∈ c.text, x ≠ ';' := fun x hx => by
    have := c.isFieldChar_of_mem x hx
    simp_all [isFieldChar]
  rw [readJumpField, cut?_of_forall h]

/-- The part of a compute instruction behind the destination. -/
theorem readJumpField_text (c : Comp) (jump : Option Jump) :
    readJumpField (c.text ++ (jumpText jump).toList) = .ok (c.text, jump) := by
  cases jump with
  | none => simpa [jumpText] using readJumpField_none c
  | some j => simpa [jumpText] using readJumpField_some c j

theorem mem_jumpText {jump : Option Jump} {x : Char} (h : x ∈ (jumpText jump).toList) :
    x = ';' ∨ isFieldChar x = true := by
  cases jump with
  | none => simp [jumpText] at h
  | some j =>
    simp only [jumpText, String.toList_ofList, List.mem_cons] at h
    exact h.imp id (j.isFieldChar_of_mem x)

theorem readDestField_text (dest : Option Dest) (c : Comp) (jump : Option Jump) :
    readDestField ((destText dest).toList ++ (c.text ++ (jumpText jump).toList)) =
      .ok (dest, c.text ++ (jumpText jump).toList) := by
  cases dest with
  | some t => simpa [destText] using readDestField_some t _
  | none =>
    refine (congrArg readDestField (by simp [destText])).trans (readDestField_none fun x hx => ?_)
    rcases List.mem_append.1 hx with hx | hx
    · have := c.isFieldChar_of_mem x hx
      rintro rfl
      simp [isFieldChar] at this
    · rintro rfl
      rcases mem_jumpText hx with h | h <;> revert h <;> decide

/-- What a compute instruction says is read off its text if it has an effect. -/
theorem readCompute_text {dest : Option Dest} {c : Comp} {jump : Option Jump}
    (h : (dest.isNone && jump.isNone) = false) :
    readCompute ((destText dest).toList ++ (c.text ++ (jumpText jump).toList)) =
      .ok (compute dest c jump) := by
  rw [readCompute, readDestField_text]
  show Except.bind (readJumpField _) _ = _
  rw [readJumpField_text]
  simp only [Except.bind, h]
  show Except.bind (Comp.read (trim c.text)) _ = _
  rw [Comp.read_text]
  rfl

/-! ## One instruction -/

/-- What an instruction must be like to be read back from its text. -/
def WellFormed : Instruction → Prop
  | load a => a.WellFormed
  | label name => isSymbol name = true
  | compute dest _ jump => (dest.isNone && jump.isNone) = false
  | comment text => IsTrimmed text.toList

def isComment : Instruction → Bool
  | comment _ => true
  | _ => false

/-- The characters of an instruction that is not a comment. -/
def isCodeChar (c : Char) : Bool := !isBlank c && c != '/'

theorem isCodeChar_of_isSymbolChar {c : Char} (h : isSymbolChar c = true) :
    isCodeChar c = true := by
  have hb := isBlank_of_isSymbolChar h
  have hs : c ≠ '/' := by
    rintro rfl
    revert h
    decide
  simp [isCodeChar, hb, hs]

theorem isCodeChar_of_isFieldChar {c : Char} (h : isFieldChar c = true) : isCodeChar c = true := by
  simp_all [isFieldChar, isCodeChar]

theorem isCodeChar_of_mem_text {i : Instruction} (hi : i.WellFormed) (hc : i.isComment = false) :
    ∀ c ∈ i.text.toList, isCodeChar c = true := by
  cases i with
  | load a =>
    cases a with
    | value n =>
      intro c h
      simp only [text, Address.text, String.toList_append, List.mem_append] at h
      rcases h with h | h
      · exact List.all_eq_true.1 (by decide) c h
      · exact isCodeChar_of_isSymbolChar (isSymbolChar_of_mem_decimal h)
    | symbol name =>
      intro c h
      simp only [text, Address.text, String.toList_append, List.mem_append] at h
      rcases h with h | h
      · exact List.all_eq_true.1 (by decide) c h
      · exact isCodeChar_of_isSymbolChar (isSymbolChar_of_mem hi c h)
  | label name =>
    intro c h
    simp only [text, String.toList_append, List.mem_append] at h
    rcases h with (h | h) | h
    · exact List.all_eq_true.1 (by decide) c h
    · exact isCodeChar_of_isSymbolChar (isSymbolChar_of_mem hi c h)
    · exact List.all_eq_true.1 (by decide) c h
  | compute dest comp jump =>
    intro c h
    simp only [text, String.toList_append, String.toList_ofList, List.mem_append] at h
    rcases h with (h | h) | h
    · cases dest with
      | none => simp [destText] at h
      | some t =>
        simp only [destText, String.toList_ofList, List.mem_append, List.mem_singleton] at h
        rcases h with h | rfl
        · exact isCodeChar_of_isFieldChar (t.isFieldChar_of_mem c h)
        · decide
    · exact isCodeChar_of_isFieldChar (comp.isFieldChar_of_mem c h)
    · rcases mem_jumpText h with rfl | h
      · decide
      · exact isCodeChar_of_isFieldChar h
  | comment t => simp [isComment] at hc

theorem isTrimmed_text {i : Instruction} (hi : i.WellFormed) (hc : i.isComment = false) :
    IsTrimmed i.text.toList :=
  isTrimmed_of_forall fun c h => by
    have := isCodeChar_of_mem_text hi hc c h
    simp_all [isCodeChar]

theorem readTrimmed_value {n : Nat} (h : n ≤ maxAddress) :
    readTrimmed (load (.value n)).text.toList = .ok (load (.value n)) := by
  have hd : (decimal n).toList.head?.any Char.isDigit = true := by
    cases hs : (decimal n).toList with
    | nil => exact absurd hs (decimal_ne_nil n)
    | cons c cs => exact isDigit_of_mem_decimal (n := n) (by simp [hs])
  have hw : n ≤ maxWord := Nat.le_trans h (by decide)
  have ht : (load (.value n)).text.toList = '@' :: (decimal n).toList := by
    simp [text, Address.text]
  rw [ht, readTrimmed, readLoad, if_pos hd, readNumber?_decimal, if_pos hw]
  simp only [h, if_true]

theorem readTrimmed_symbol {name : String} (h : isSymbol name = true) :
    readTrimmed (load (.symbol name)).text.toList = .ok (load (.symbol name)) := by
  have hd : name.toList.head?.any Char.isDigit = false := by
    cases hs : name.toList with
    | nil => rfl
    | cons c cs => exact (isSymbolText_iff.1 h).2.2 c (by simp [hs])
  have ht : (load (.symbol name)).text.toList = '@' :: name.toList := by
    simp [text, Address.text]
  have hs : isSymbolText name.toList = true := h
  rw [ht, readTrimmed, readLoad, hd, if_neg Bool.false_ne_true, if_pos hs, String.ofList_toList]

theorem readTrimmed_label {name : String} (h : isSymbol name = true) :
    readTrimmed (label name).text.toList = .ok (label name) := by
  have ht : (label name).text.toList = '(' :: (name.toList ++ [')']) := by simp [text]
  have hs : isSymbolText name.toList = true := h
  rw [ht, readTrimmed, readLabel]
  simp [hs]

theorem readTrimmed_compute {dest : Option Dest} {c : Comp} {jump : Option Jump}
    (h : (dest.isNone && jump.isNone) = false) :
    readTrimmed (compute dest c jump).text.toList = .ok (compute dest c jump) := by
  have ht : (compute dest c jump).text.toList =
      (destText dest).toList ++ (c.text ++ (jumpText jump).toList) := by
    simp [text]
  -- the first letter of a field is none of the marks that begin another form
  have hr : ∀ x s, isFieldChar x = true → x ≠ '(' → x ≠ '@' →
      readTrimmed (x :: s) = readCompute (x :: s) := by
    intro x s hx h₁ h₂
    have h₃ : x ≠ '/' := by
      rintro rfl
      simp [isFieldChar] at hx
    rw [readTrimmed.eq_def]
    split
    · simp_all
    · simp_all
    · simp_all
    · rfl
  rw [ht, ← readCompute_text h]
  cases dest with
  | some t => cases t <;> exact hr _ _ (by decide) (by decide) (by decide)
  | none => cases c <;> first
      | exact hr _ _ (by decide) (by decide) (by decide)
      | (rename_i i; cases i <;> exact hr _ _ (by decide) (by decide) (by decide))

theorem trim_comment {t : String} (h : IsTrimmed t.toList) :
    readTrimmed (trim (comment t).text.toList) = .ok (comment t) := by
  have ht : (comment t).text.toList = '/' :: '/' :: ' ' :: t.toList := by simp [text]
  rw [ht]
  cases hs : t.toList with
  | nil =>
    have : t = "" := String.toList_eq_nil_iff.1 hs
    subst this
    rfl
  | cons c cs =>
    have hl : IsTrimmed ('/' :: '/' :: ' ' :: c :: cs) :=
      ⟨by simp [isBlank, blankRanges], fun x hx => h.2 x (by simpa [hs] using hx)⟩
    have hb : trim (' ' :: c :: cs) = c :: cs := by
      rw [trim, trimStart_cons_of_blank _ (by decide), ← trim, ← hs, trim_of_isTrimmed h]
    rw [trim_of_isTrimmed hl, readTrimmed, hb, ← hs, String.ofList_toList]

/-- A well-formed instruction is read back from its text. -/
theorem read_text {i : Instruction} (h : i.WellFormed) : read i.text = .ok i := by
  rw [read]
  cases i with
  | comment t => exact trim_comment h
  | load a =>
    rw [trim_of_isTrimmed (isTrimmed_text h rfl)]
    cases a with
    | value n => exact readTrimmed_value h
    | symbol name => exact readTrimmed_symbol h
  | label name =>
    rw [trim_of_isTrimmed (isTrimmed_text h rfl)]
    exact readTrimmed_label h
  | compute dest c jump =>
    rw [trim_of_isTrimmed (isTrimmed_text h rfl)]
    exact readTrimmed_compute h

/-! ## A program -/

/-- An instruction that takes one line: only a comment could take more. -/
def OnOneLine (i : Instruction) : Prop := '\n' ∉ i.text.toList

theorem onOneLine_of_not_isComment {i : Instruction} (hi : i.WellFormed)
    (hc : i.isComment = false) : i.OnOneLine := by
  intro h
  have := isCodeChar_of_mem_text hi hc _ h
  revert this
  decide

theorem onOneLine_comment {t : String} (h : '\n' ∉ t.toList) : (comment t).OnOneLine := by
  simp [OnOneLine, text, h]

/-- The text of a well-formed instruction does not end with a carriage return. -/
theorem dropCarriageReturn_text {i : Instruction} (h : i.WellFormed) :
    dropCarriageReturn i.text.toList = i.text.toList := by
  have hl : i.text.toList.getLast? ≠ some '\r' := by
    intro hr
    cases hc : i.isComment with
    | false =>
      have := (isTrimmed_text h hc).2 _ hr
      revert this
      decide
    | true =>
      cases i with
      | comment t =>
        have ht : (comment t).text.toList = ['/', '/', ' '] ++ t.toList := by simp [text]
        rw [ht, List.getLast?_append] at hr
        cases hs : t.toList.getLast? with
        | none => simp [hs] at hr
        | some c =>
          have := h.2 c hs
          simp only [hs, Option.some_or, Option.some.injEq] at hr
          subst hr
          revert this
          decide
      | _ => simp [isComment] at hc
  rw [dropCarriageReturn, if_neg hl]

theorem lines_render {code : List Instruction} (hw : ∀ i ∈ code, i.WellFormed)
    (hl : ∀ i ∈ code, i.OnOneLine) :
    lines (render code).toList = code.map fun i => i.text.toList := by
  induction code with
  | nil => simp [render_nil, lines_nil]
  | cons i code ih =>
    have hi : ∀ c ∈ i.text.toList, (c == '\n') = false := by
      intro c hc
      have := hl i (by simp)
      rw [beq_eq_false_iff_ne]
      rintro rfl
      exact this hc
    have hs : (render (i :: code)).toList = i.text.toList ++ '\n' :: (render code).toList := by
      simp [toList_render]
    rw [hs, lines_append_newline hi, dropCarriageReturn_text (hw i (by simp)), List.map_cons,
      ih (fun j hj => hw j (by simp [hj])) fun j hj => hl j (by simp [hj])]

/-- Reading every line of a printed program gives its instructions, comments included. -/
theorem mapM_read_lines {code : List Instruction} (hw : ∀ i ∈ code, i.WellFormed)
    (hl : ∀ i ∈ code, i.OnOneLine) :
    (lines (render code).toList).mapM (fun l => read (String.ofList l)) = .ok code := by
  rw [lines_render hw hl]
  clear hl
  induction code with
  | nil => rfl
  | cons i code ih =>
    rw [List.map_cons, List.mapM_cons, String.ofList_toList, read_text (hw i (by simp))]
    show Except.bind (List.mapM _ _) _ = _
    rw [ih fun j hj => hw j (by simp [hj])]
    rfl

/-! ## Loading -/

/-- The instructions without the comments. -/
def bare (code : List Instruction) : List Instruction := code.filter fun i => !i.isComment

theorem code_of_slash_notMem {s : List Char} (h : '/' ∉ s) : SourceLine.code s = s := by
  induction s with
  | nil => rfl
  | cons c s ih =>
    rw [SourceLine.code.eq_def]
    split
    · simp_all
    · simp_all
    · rename_i heq
      cases heq
      rw [ih fun hs => h (List.mem_cons_of_mem _ hs)]

theorem ofLine?_comment (n : Nat) (t : String) :
    SourceLine.ofLine? n (comment t).text.toList = none := by
  have ht : (comment t).text.toList = '/' :: '/' :: ' ' :: t.toList := by simp [text]
  rw [ht]
  rfl

theorem ofLine?_text {i : Instruction} (hi : i.WellFormed) (hc : i.isComment = false) (n : Nat) :
    SourceLine.ofLine? n i.text.toList = some ⟨n, i.text⟩ := by
  have hne : i.text.toList ≠ [] := by
    intro h
    have hr := read_text hi
    have he : read "" = .error ⟨"", .noEffect⟩ := rfl
    rw [String.toList_eq_nil_iff.1 h, he] at hr
    cases hr
  have hs : '/' ∉ i.text.toList := by
    intro h
    exact absurd (isCodeChar_of_mem_text hi hc _ h) (by decide)
  rw [SourceLine.ofLine?_eq_some_iff, code_of_slash_notMem hs,
    trim_of_isTrimmed (isTrimmed_text hi hc)]
  exact ⟨rfl, rfl, hne⟩

theorem mapM_ofLine?_text {code : List Instruction} (hw : ∀ i ∈ code, i.WellFormed) (n : Nat) :
    ((((code.map fun i => i.text.toList).zipIdx n).filterMap fun l =>
      SourceLine.ofLine? l.2 l.1).mapM fun l => (read l.text).mapError (LoadError.read l.number)) =
        .ok (bare code) := by
  induction code generalizing n with
  | nil => rfl
  | cons i code ih =>
    have hw' : ∀ j ∈ code, j.WellFormed := fun j hj => hw j (by simp [hj])
    cases hc : i.isComment with
    | true =>
      cases i with
      | comment t => simpa [ofLine?_comment, bare, isComment] using ih hw' (n + 1)
      | _ => simp [isComment] at hc
    | false =>
      have hi : i.WellFormed := hw i (by simp)
      simp only [List.map_cons, List.zipIdx_cons, List.filterMap_cons, ofLine?_text hi hc,
        List.mapM_cons, read_text hi]
      show Except.bind (List.mapM _ _) _ = _
      rw [ih hw' (n + 1)]
      simp [bare, hc, Except.bind, pure, Except.pure]

end Instruction

end Assembly

open Assembly Instruction

/-- Loading a printed program drops the comments and nothing else. -/
theorem Rom.readLines_render {code : List Instruction} (hw : ∀ i ∈ code, i.WellFormed)
    (hl : ∀ i ∈ code, i.OnOneLine) : Rom.readLines (render code) = .ok (bare code) := by
  rw [Rom.readLines, SourceLine.ofText, lines_render hw hl]
  exact mapM_ofLine?_text hw 1

end HackVM
