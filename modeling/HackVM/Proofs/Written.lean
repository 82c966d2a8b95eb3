import HackVM.Proofs.Accepted

/-!
# Commands written out

A command in range is read back from its text: its words are free of blanks and of comments,
and each operand is what its reader expects. So a unit can be written from a list of commands,
one on each line, and the sites of the unit are these commands.
-/

namespace HackVM

open Assembly.Instruction Text

/-! ## Words of a line -/

/-- A word that neither a blank nor a comment cuts short. -/
def IsWord (w : List Char) : Prop := w ≠ [] ∧ ∀ c ∈ w, isCodeChar c = true

instance : DecidablePred IsWord := fun w =>
  decidable_of_iff ((!w.isEmpty && w.all isCodeChar) = true) (by simp [IsWord])

theorem isBlank_of_isCodeChar {c : Char} (h : isCodeChar c = true) : isBlank c = false := by
  simp_all [isCodeChar]

theorem isWord_of_isSymbol {name : String} (h : isSymbol name = true) : IsWord name.toList :=
  ⟨(isSymbolText_iff.1 h).1, fun _ hc => isCodeChar_of_isSymbolChar (isSymbolChar_of_mem h _ hc)⟩

theorem isWord_decimal (n : Nat) : IsWord (decimal n).toList :=
  ⟨decimal_ne_nil n, fun _ hc => isCodeChar_of_isSymbolChar (isSymbolChar_of_mem_decimal hc)⟩

/-- Words with single blanks between them. -/
def spaced (ws : List (List Char)) : List Char := [' '].intercalate ws

theorem spaced_cons_cons (w v : List Char) (ws : List (List Char)) :
    spaced (w :: v :: ws) = w ++ ' ' :: spaced (v :: ws) := by
  rw [spaced, spaced, List.intercalate_cons_cons, List.append_assoc]
  rfl

@[simp] theorem spaced_singleton (w : List Char) : spaced [w] = w := List.intercalate_singleton

section

variable {ws : List (List Char)} (h : ∀ w ∈ ws, IsWord w)

include h

theorem words_spaced : Text.words (spaced ws) = ws := by
  induction ws with
  | nil => rfl
  | cons w ws ih =>
    have hw : IsWord w := h w (by simp)
    have hb : ∀ c ∈ w, isBlank c = false := fun c hc => isBlank_of_isCodeChar (hw.2 c hc)
    cases ws with
    | nil =>
      rw [spaced_singleton]
      exact words_of_forall hw.1 hb
    | cons v ws =>
      rw [spaced_cons_cons, words_append_blank hw.1 hb (by decide),
        ih fun u hu => h u (List.mem_cons_of_mem _ hu)]

theorem mem_spaced {c : Char} (hc : c ∈ spaced ws) : c = ' ' ∨ isCodeChar c = true := by
  induction ws with
  | nil => simp [spaced] at hc
  | cons w ws ih =>
    have hw : IsWord w := h w (by simp)
    cases ws with
    | nil =>
      rw [spaced_singleton] at hc
      exact .inr (hw.2 c hc)
    | cons v ws =>
      rw [spaced_cons_cons, List.mem_append, List.mem_cons] at hc
      rcases hc with hc | rfl | hc
      · exact .inr (hw.2 c hc)
      · exact .inl rfl
      · exact ih (fun u hu => h u (List.mem_cons_of_mem _ hu)) hc

theorem head?_spaced : ∀ c ∈ (spaced ws).head?, isBlank c = false := by
  cases ws with
  | nil => simp [spaced]
  | cons w ws =>
    have hw : IsWord w := h w (by simp)
    have he : (spaced (w :: ws)).head? = w.head? := by
      cases ws with
      | nil => rw [spaced_singleton]
      | cons v ws =>
        obtain ⟨a, as, rfl⟩ := List.exists_cons_of_ne_nil hw.1
        rw [spaced_cons_cons]
        rfl
    intro c hc
    rw [he] at hc
    exact isBlank_of_isCodeChar (hw.2 c (List.mem_of_head? hc))

theorem spaced_ne_nil (hne : ws ≠ []) : spaced ws ≠ [] := by
  cases ws with
  | nil => exact absurd rfl hne
  | cons w ws =>
    cases ws with
    | nil =>
      rw [spaced_singleton]
      exact (h w (by simp)).1
    | cons v ws => simp [spaced_cons_cons]

theorem getLast?_spaced : ∀ c ∈ (spaced ws).getLast?, isBlank c = false := by
  induction ws with
  | nil => simp [spaced]
  | cons w ws ih =>
    cases ws with
    | nil =>
      rw [spaced_singleton]
      exact fun c hc => isBlank_of_isCodeChar ((h w (by simp)).2 c (List.mem_of_getLast? hc))
    | cons v ws =>
      have hv : ∀ u ∈ v :: ws, IsWord u := fun u hu => h u (List.mem_cons_of_mem _ hu)
      have hl : (spaced (v :: ws)).getLast? ≠ none :=
        mt List.getLast?_eq_none_iff.1 (spaced_ne_nil hv (by simp))
      obtain ⟨x, hx⟩ := Option.ne_none_iff_exists'.1 hl
      have he : (spaced (w :: v :: ws)).getLast? = some x := by
        rw [spaced_cons_cons, List.getLast?_append, List.getLast?_cons, hx]
        rfl
      rw [he, ← hx]
      exact ih hv

theorem isTrimmed_spaced : IsTrimmed (spaced ws) := ⟨head?_spaced h, getLast?_spaced h⟩

end

/-! ## A command -/

theorem Segment.maxIndex_le (s : Segment) : s.maxIndex ≤ maxAddress := by cases s <;> decide

theorem readNumber?_decimal_of_le {n : Nat} (h : n ≤ maxAddress) :
    readNumber? (decimal n).toList = some n := by
  have hm : maxAddress ≤ maxWord := by decide
  rw [readNumber?_decimal, if_pos (Nat.le_trans h hm)]

theorem Segment.isWord_keyword (s : Segment) : IsWord s.keyword.toList := by cases s <;> decide

theorem ArithmeticOp.isWord_keyword (op : ArithmeticOp) : IsWord op.keyword.toList := by
  cases op <;> decide

namespace Command

theorem isWord_of_mem_words {c : Command} (h : c.InRange) : ∀ w ∈ c.words, IsWord w.toList := by
  cases c with
  | push s i =>
    rw [words, List.forall_mem_cons, List.forall_mem_cons, List.forall_mem_singleton]
    exact ⟨by decide, s.isWord_keyword, isWord_decimal i⟩
  | pop s i =>
    rw [words, List.forall_mem_cons, List.forall_mem_cons, List.forall_mem_singleton]
    exact ⟨by decide, s.isWord_keyword, isWord_decimal i⟩
  | arithmetic op =>
    rw [words, List.forall_mem_singleton]
    exact op.isWord_keyword
  | label name =>
    rw [words, List.forall_mem_cons, List.forall_mem_singleton]
    exact ⟨by decide, isWord_of_isSymbol h⟩
  | goto name =>
    rw [words, List.forall_mem_cons, List.forall_mem_singleton]
    exact ⟨by decide, isWord_of_isSymbol h⟩
  | ifGoto name =>
    rw [words, List.forall_mem_cons, List.forall_mem_singleton]
    exact ⟨by decide, isWord_of_isSymbol h⟩
  | function name k =>
    rw [words, List.forall_mem_cons, List.forall_mem_cons, List.forall_mem_singleton]
    exact ⟨by decide, isWord_of_isSymbol h.1, isWord_decimal k⟩
  | call name k =>
    rw [words, List.forall_mem_cons, List.forall_mem_cons, List.forall_mem_singleton]
    exact ⟨by decide, isWord_of_isSymbol h.1, isWord_decimal k⟩
  | ret =>
    rw [words, List.forall_mem_singleton]
    decide

theorem ofWords_words {c : Command} (h : c.InRange) : ofWords c.words = .ok c := by
  cases c with
  | push s i =>
    exact readPush_eq_ok_iff.2
      ⟨s, i, rfl, readNumber?_decimal_of_le (Nat.le_trans h s.maxIndex_le), h, rfl⟩
  | pop s i =>
    exact readPop_eq_ok_iff.2
      ⟨s, i, rfl, readNumber?_decimal_of_le (Nat.le_trans h.2 s.maxIndex_le), h.1, h.2, rfl⟩
  | arithmetic op =>
    rw [words, ofWords, ArithmeticOp.ofKeyword?_keyword]
    rfl
  | label name => exact map_readName_eq_ok_iff.2 ⟨h, rfl⟩
  | goto name => exact map_readName_eq_ok_iff.2 ⟨h, rfl⟩
  | ifGoto name => exact map_readName_eq_ok_iff.2 ⟨h, rfl⟩
  | function name k =>
    exact readName_readCount_eq_ok_iff.2 ⟨k, h.1, readNumber?_decimal_of_le h.2, h.2, rfl⟩
  | call name k =>
    exact readName_readCount_eq_ok_iff.2 ⟨k, h.1, readNumber?_decimal_of_le h.2, h.2, rfl⟩
  | ret => rfl

theorem toList_text (c : Command) : c.text.toList = spaced (c.words.map String.toList) := by
  rw [text, String.toList_intercalate]
  rfl

theorem isWord_of_mem_map {c : Command} (h : c.InRange) :
    ∀ w ∈ c.words.map String.toList, IsWord w := by
  rw [List.forall_mem_map]
  exact isWord_of_mem_words h

theorem read_text {c : Command} (h : c.InRange) : read c.text = .ok c := by
  have hw : (c.words.map String.toList).map String.ofList = c.words := by
    simp [Function.comp_def]
  rw [read, toList_text, words_spaced (isWord_of_mem_map h), hw, ofWords_words h]

/-- A written command is a source line as it stands. -/
theorem ofLine?_text {c : Command} (h : c.InRange) (n : Nat) :
    SourceLine.ofLine? n c.text.toList = some ⟨n, c.text⟩ := by
  have hw := isWord_of_mem_map h
  have hs : '/' ∉ c.text.toList := by
    rw [toList_text]
    intro hc
    rcases mem_spaced hw hc with hc | hc
    · cases hc
    · exact absurd hc (by decide)
  have ht : IsTrimmed c.text.toList := by
    rw [toList_text]
    exact isTrimmed_spaced hw
  have hne : c.text.toList ≠ [] := by
    rw [toList_text]
    refine spaced_ne_nil hw ?_
    cases c <;> exact List.cons_ne_nil _ _
  rw [SourceLine.ofLine?_eq_some_iff, code_of_slash_notMem hs, trim_of_isTrimmed ht]
  exact ⟨rfl, rfl, hne⟩

theorem newline_notMem_text {c : Command} (h : c.InRange) : '\n' ∉ c.text.toList := by
  rw [toList_text]
  intro hc
  rcases mem_spaced (isWord_of_mem_map h) hc with hc | hc
  · cases hc
  · exact absurd hc (by decide)

theorem dropCarriageReturn_text {c : Command} (h : c.InRange) :
    dropCarriageReturn c.text.toList = c.text.toList := by
  refine if_neg fun hr => ?_
  rw [toList_text] at hr
  exact absurd (getLast?_spaced (isWord_of_mem_map h) _ hr) (by decide)

end Command

/-! ## A unit -/

/-- A unit with the commands on its lines. -/
def SourceUnit.written (name : String) (cs : List Command) : SourceUnit :=
  ⟨name, String.join (cs.map fun c => c.text ++ "\n")⟩

/-- The sites of commands one after the other; `scope` is that in front of the first. -/
def sitesOf (unit : String) (scope : Scope) : List Command → List Site
  | [] => []
  | c :: cs => ⟨⟨unit, scope.after c⟩, c.text, c⟩ :: sitesOf unit (scope.after c) cs

/-- Commands other than `function` stay in their scope. -/
theorem sitesOf_of_forall {unit : String} {scope : Scope} {cs : List Command}
    (h : ∀ c ∈ cs, scope.after c = scope) :
    sitesOf unit scope cs = cs.map fun c => ⟨⟨unit, scope⟩, c.text, c⟩ := by
  induction cs with
  | nil => rfl
  | cons c cs ih =>
    rw [sitesOf, h c (by simp), List.map_cons, ih fun d hd => h d (by simp [hd])]

namespace SourceUnit

variable {cs : List Command} (h : ∀ c ∈ cs, c.InRange)

include h

theorem lines_written (name : String) :
    lines (written name cs).source.toList = cs.map fun c => c.text.toList := by
  induction cs with
  | nil => rfl
  | cons c cs ih =>
    have hc : c.InRange := h c (by simp)
    have hn : ∀ x ∈ c.text.toList, (x == '\n') = false := by
      intro x hx
      rw [beq_eq_false_iff_ne]
      rintro rfl
      exact Command.newline_notMem_text hc hx
    have hs : (written name (c :: cs)).source.toList =
        c.text.toList ++ '\n' :: (written name cs).source.toList := by
      simp [written, String.toList_join]
    rw [hs, lines_append_newline hn, Command.dropCarriageReturn_text hc, List.map_cons,
      ih fun d hd => h d (by simp [hd])]

theorem ofText_written (name : String) :
    SourceLine.ofText (written name cs).source =
      (cs.zipIdx 1).map fun e => ⟨e.2, e.1.text⟩ := by
  rw [SourceLine.ofText, lines_written h]
  generalize 1 = n
  induction cs generalizing n with
  | nil => rfl
  | cons c cs ih =>
    simp only [List.map_cons, List.zipIdx_cons, List.filterMap_cons,
      Command.ofLine?_text (h c (by simp)) n, ih fun d hd => h d (by simp [hd])]

theorem exists_read_written (name : String) :
    ∀ l ∈ SourceLine.ofText (written name cs).source, ∃ c, Command.read l.text = .ok c := by
  intro l hl
  rw [ofText_written h] at hl
  obtain ⟨e, he, rfl⟩ := List.mem_map.1 hl
  exact ⟨e.1, Command.read_text (h _ (List.fst_mem_of_mem_zipIdx he))⟩

/-- The sites of a written unit are its commands. -/
theorem sites_written (name : String) :
    (written name cs).sites = sitesOf name (.unit name) cs := by
  rw [sites, ofText_written h]
  show sitesFrom name (.unit name) _ = _
  generalize Scope.unit name = scope
  generalize 1 = n
  induction cs generalizing scope n with
  | nil => rfl
  | cons c cs ih =>
    rw [List.zipIdx_cons, List.map_cons, sitesFrom, Command.read_text (h c (by simp))]
    show _ :: _ = _
    rw [ih (fun d hd => h d (by simp [hd]))]
    rfl

end SourceUnit

end HackVM
