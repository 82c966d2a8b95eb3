import HackVM.Proofs.Accepted
import HackVM.Proofs.Paths

/-!
# What is kept of a text

The source lines of a text, told without the computation: what a line of a text is, where its
comment begins, and what is left when it is trimmed. A line is kept exactly if something is left
of it. What is kept has no blank at its ends and no comment mark in it, so a text that consists of
kept lines alone is kept as it stands.
-/

namespace HackVM

open Text

/-! ## Lines -/

namespace Text

/-- Line `n` of a text, counted from one, has `n - 1` line feeds in front of it, and begins behind
the last of them. It runs to the next line feed, less one carriage return directly before that.
The last line runs to the end of the text, if it is not empty. -/
def LineAt (s : List Char) (n : Nat) (line : List Char) : Prop :=
  ∃ front raw back, s = front ++ (raw ++ back) ∧ (∀ c ∈ front.getLast?, c = '\n') ∧
    front.count '\n' + 1 = n ∧ '\n' ∉ raw ∧
    (back.head? = some '\n' ∧ line = dropCarriageReturn raw ∨ back = [] ∧ raw ≠ [] ∧ line = raw)

/-- A text has no line feed, or it is cut in two at the first one. -/
theorem lines_induction {motive : List Char → Prop} (last : ∀ raw, '\n' ∉ raw → motive raw)
    (cons : ∀ raw rest, '\n' ∉ raw → motive rest → motive (raw ++ '\n' :: rest)) :
    ∀ s, motive s := by
  intro s
  induction hn : s.length using Nat.strongRecOn generalizing s with
  | ind n ih =>
    by_cases h : '\n' ∈ s
    · obtain ⟨raw, rest, rfl, hraw⟩ := List.eq_append_cons_of_mem h
      refine cons raw rest hraw (ih rest.length ?_ rest rfl)
      rw [← hn, List.length_append, List.length_cons]
      omega
    · exact last s h

theorem lines_of_newline_notMem {s : List Char} (h : '\n' ∉ s) (hne : s ≠ []) : lines s = [s] := by
  have hs : split (· == '\n') s = [s] :=
    split_of_forall fun _ hc => beq_eq_false_iff_ne.2 fun he => h (he ▸ hc)
  simp [lines, hs, hne]

theorem lines_cut {s : List Char} (h : '\n' ∉ s) (t : List Char) :
    lines (s ++ '\n' :: t) = dropCarriageReturn s :: lines t :=
  lines_append_newline (fun _ hc => beq_eq_false_iff_ne.2 fun he => h (he ▸ hc)) t

theorem count_newline_append {s : List Char} (h : '\n' ∉ s) (t : List Char) :
    (s ++ '\n' :: t).count '\n' = t.count '\n' + 1 := by
  rw [List.count_append, List.count_cons_self, List.count_eq_zero_of_not_mem h, Nat.zero_add]

theorem getElem?_lines_of_lineAt {s : List Char} {n : Nat} {line : List Char}
    (h : LineAt s n line) : (lines s)[n - 1]? = some line := by
  obtain ⟨front, raw, back, rfl, hfront, rfl, hraw, hend⟩ := h
  rw [Nat.add_sub_cancel]
  induction front using lines_induction with
  | last front hn =>
    have hnil : front = [] := by
      rw [← List.getLast?_eq_none_iff, Option.eq_none_iff_forall_ne_some]
      intro c hc
      exact hn (hfront c hc ▸ List.mem_of_getLast? hc)
    rw [List.count_eq_zero_of_not_mem hn, hnil, List.nil_append]
    rcases hend with ⟨hb, rfl⟩ | ⟨rfl, hne, rfl⟩
    · obtain ⟨rest, rfl⟩ := List.head?_eq_some_iff.1 hb
      rw [lines_cut hraw]
      rfl
    · rw [List.append_nil, lines_of_newline_notMem hraw hne]
      rfl
  | cons first front hn ih =>
    rw [count_newline_append hn, List.append_assoc, List.cons_append, lines_cut hn,
      List.getElem?_cons_succ]
    refine ih fun c hc => hfront c ?_
    simp [List.getLast?_append, List.getLast?_cons, Option.mem_def.1 hc]

theorem lineAt_of_getElem?_lines {s : List Char} {i : Nat} {line : List Char}
    (h : (lines s)[i]? = some line) : LineAt s (i + 1) line := by
  induction s using lines_induction generalizing i with
  | last s hn =>
    by_cases hne : s = []
    · rw [hne, lines_nil] at h
      cases h
    · rw [lines_of_newline_notMem hn hne, List.getElem?_singleton] at h
      split at h
      · rename_i hi
        obtain rfl := Option.some.inj h
        exact ⟨[], s, [], by simp, by simp, by simp [hi], hn, .inr ⟨rfl, hne, rfl⟩⟩
      · cases h
  | cons raw rest hn ih =>
    rw [lines_cut hn] at h
    cases i with
    | zero =>
      cases h
      exact ⟨[], raw, '\n' :: rest, rfl, by simp, rfl, hn, .inl ⟨rfl, rfl⟩⟩
    | succ i =>
      obtain ⟨front, r, back, rfl, hfront, hcount, hr, hend⟩ := ih h
      refine ⟨raw ++ '\n' :: front, r, back, by simp, ?_, ?_, hr, hend⟩
      · intro c hc
        cases hl : front.getLast? with
        | none => simpa [List.getLast?_append, List.getLast?_cons, hl, eq_comm] using hc
        | some d =>
          refine hfront c ?_
          simpa [List.getLast?_append, List.getLast?_cons, hl] using hc
      · rw [count_newline_append hn, hcount]

theorem lineAt_iff {s : List Char} {n : Nat} {line : List Char} :
    LineAt s n line ↔ ∃ i, n = i + 1 ∧ (lines s)[i]? = some line := by
  constructor
  · intro h
    have hi := getElem?_lines_of_lineAt h
    obtain ⟨front, -, -, -, -, hn, -⟩ := h
    exact ⟨front.count '\n', hn.symm, by rwa [← hn] at hi⟩
  · rintro ⟨i, rfl, h⟩
    exact lineAt_of_getElem?_lines h

/-! ## Trimming -/

/-- The text is this one between blanks, and neither its first nor its last character is blank. -/
def TrimsTo (s t : List Char) : Prop :=
  IsTrimmed t ∧ ∃ front back, s = front ++ (t ++ back) ∧ (∀ c ∈ front, isBlank c = true) ∧
    ∀ c ∈ back, isBlank c = true

theorem trimStart_append_of_blank {front : List Char} (h : ∀ c ∈ front, isBlank c = true)
    (s : List Char) : trimStart (front ++ s) = trimStart s :=
  List.dropWhile_append_of_pos h

theorem trimEnd_append_of_blank {back : List Char} (h : ∀ c ∈ back, isBlank c = true)
    (s : List Char) : trimEnd (s ++ back) = trimEnd s := by
  rw [trimEnd, List.reverse_append,
    List.dropWhile_append_of_pos fun c hc => h c (List.mem_reverse.1 hc), trimEnd]

/-- Trimming gives the one trimmed text that is left between blanks. -/
theorem trimsTo_iff {s t : List Char} : TrimsTo s t ↔ trim s = t := by
  constructor
  · rintro ⟨ht, front, back, rfl, hf, hb⟩
    rw [trim, trimStart_append_of_blank hf]
    cases t with
    | nil =>
      rw [List.nil_append, ← List.append_nil back, trimStart_append_of_blank hb]
      rfl
    | cons c t =>
      have hc : trimStart (c :: t ++ back) = c :: t ++ back :=
        trimStart_of_head fun d hd => ht.1 d (by simpa using hd)
      rw [hc, trimEnd_append_of_blank hb, trimEnd_of_getLast ht.2]
  · rintro rfl
    exact ⟨trim_isTrimmed s, exists_eq_append_trim s⟩

end Text

/-! ## Comments -/

namespace SourceLine

/-- The part of a line in front of its first comment mark, or the whole line if it has none. -/
def CodeOf (line code : List Char) : Prop :=
  (code = line ∨ ∃ comment, line = code ++ '/' :: '/' :: comment) ∧
    ∀ front comment, line = front ++ '/' :: '/' :: comment → code.length ≤ front.length

theorem codeOf_code (line : List Char) : CodeOf line (code line) := by
  fun_induction code line with
  | case1 => exact ⟨.inl rfl, by simp⟩
  | case2 comment => exact ⟨.inr ⟨comment, rfl⟩, by simp⟩
  | case3 c cs hmark ih =>
    refine ⟨?_, ?_⟩
    · rcases ih.1 with h | ⟨comment, h⟩
      · exact .inl (congrArg _ h)
      · exact .inr ⟨comment, congrArg _ h⟩
    · intro front comment h
      cases front with
      | nil =>
        obtain ⟨rfl, rfl⟩ := List.cons.inj h
        exact absurd rfl (hmark comment rfl)
      | cons d front =>
        exact Nat.succ_le_succ (ih.2 front comment (List.cons.inj h).2)

theorem CodeOf.isPrefix {line code : List Char} (h : CodeOf line code) : code <+: line := by
  rcases h.1 with rfl | ⟨comment, rfl⟩
  · exact List.prefix_refl _
  · exact List.prefix_append _ _

/-- Of two parts of a line in front of its first mark, neither is longer. -/
theorem CodeOf.length_le {line code code' : List Char} (h : CodeOf line code)
    (h' : CodeOf line code') : code.length ≤ code'.length := by
  rcases h'.1 with rfl | ⟨comment, hc⟩
  · exact h.isPrefix.length_le
  · exact h.2 code' comment hc

theorem codeOf_iff {line k : List Char} : CodeOf line k ↔ code line = k := by
  constructor
  · intro h
    have h' := codeOf_code line
    exact (List.prefix_of_prefix_length_le h'.isPrefix h.isPrefix (h'.length_le h)).eq_of_length
      (Nat.le_antisymm (h'.length_le h) (h.length_le h'))
  · rintro rfl
    exact codeOf_code line

/-! ## What is kept -/

theorem ofText_numbers_increase (s : String) :
    (ofText s).Pairwise fun a b => a.number < b.number := by
  rw [ofText, List.pairwise_filterMap]
  have hn : ((lines s.toList).zipIdx 1).Pairwise fun a b => a.2 < b.2 := by
    rw [← List.pairwise_map (f := Prod.snd), List.zipIdx_map_snd]
    exact List.pairwise_lt_range' 1
  refine hn.imp fun {a b} hab x hx y hy => ?_
  rw [(ofLine?_eq_some_iff.1 hx).1, (ofLine?_eq_some_iff.1 hy).1]
  exact hab

/-- A line of a text is kept, with its number, if something is left of it. -/
theorem mem_ofText_iff {s : String} {n : Nat} {t : String} :
    ⟨n, t⟩ ∈ ofText s ↔
      t ≠ "" ∧ ∃ line k, LineAt s.toList n line ∧ CodeOf line k ∧ TrimsTo k t.toList := by
  rw [mem_ofText]
  simp only [ofLine?_eq_some_iff, lineAt_iff, codeOf_iff, trimsTo_iff]
  constructor
  · rintro ⟨i, line, hl, hn, ht, hne⟩
    refine ⟨?_, line, code line, ⟨i, hn, hl⟩, rfl, ht.symm⟩
    rintro rfl
    exact hne ht.symm
  · rintro ⟨hne, line, k, ⟨i, rfl, hl⟩, rfl, ht⟩
    exact ⟨i, line, hl, rfl, ht.symm, fun h => hne (String.toList_eq_nil_iff.1 (ht.symm.trans h))⟩

/-- A text that is kept as it stands if it is on a line of its own. -/
structure Kept (t : String) : Prop where
  ne_empty : t ≠ ""
  isTrimmed : IsTrimmed t.toList
  no_mark : ¬ ['/', '/'] <:+: t.toList
  one_line : '\n' ∉ t.toList

theorem no_mark_code (line : List Char) : ¬ ['/', '/'] <:+: code line := by
  rintro ⟨front, comment, h⟩
  obtain ⟨rest, hrest⟩ := (codeOf_code line).isPrefix
  have hle := (codeOf_code line).2 front (comment ++ rest) (by rw [← hrest, ← h]; simp)
  rw [← h] at hle
  simp only [List.length_append, List.length_cons, List.length_nil] at hle
  omega

theorem kept_of_mem {s : String} {l : SourceLine} (h : l ∈ ofText s) : Kept l.text := by
  obtain ⟨htrim, hline⟩ := text_of_mem h
  obtain ⟨i, line, -, hl⟩ := mem_ofText.1 h
  obtain ⟨-, ht, hne⟩ := ofLine?_eq_some_iff.1 hl
  refine ⟨fun he => hne ?_, htrim, fun hm => ?_, hline⟩
  · rw [← ht, he]
    rfl
  · obtain ⟨front, back, hcode, -⟩ := exists_eq_append_trim (code line)
    rw [ht] at hm
    refine no_mark_code line (hm.trans ⟨front, back, ?_⟩)
    rw [List.append_assoc, ← hcode]

theorem Kept.ofLine? {t : String} (h : Kept t) (n : Nat) :
    SourceLine.ofLine? n t.toList = some ⟨n, t⟩ := by
  have hcode : code t.toList = t.toList := by
    refine codeOf_iff.1 ⟨.inl rfl, fun front comment ht => ?_⟩
    exact absurd ⟨front, comment, by rw [ht]; simp⟩ h.no_mark
  rw [ofLine?_eq_some_iff, hcode, trim_of_isTrimmed h.isTrimmed]
  exact ⟨rfl, rfl, fun he => h.ne_empty (String.toList_eq_nil_iff.1 he)⟩

/-- A kept text does not end in a carriage return, which is blank. -/
theorem Kept.dropCarriageReturn {t : String} (h : Kept t) :
    Text.dropCarriageReturn t.toList = t.toList :=
  if_neg fun hr => absurd (h.isTrimmed.2 _ hr) (by decide)

theorem lines_intercalate {ts : List String} (h : ∀ t ∈ ts, Kept t) :
    lines ("\n".intercalate ts).toList = ts.map String.toList := by
  rw [String.toList_intercalate]
  induction ts with
  | nil => rfl
  | cons t ts ih =>
    obtain ⟨ht, hts⟩ := List.forall_mem_cons.1 h
    cases ts with
    | nil =>
      rw [List.map_singleton, List.intercalate_singleton]
      exact lines_of_newline_notMem ht.one_line fun he =>
        ht.ne_empty (String.toList_eq_nil_iff.1 he)
    | cons u ts =>
      rw [List.map_cons, List.map_cons, List.intercalate_cons_cons, List.append_assoc]
      show lines (t.toList ++ '\n' :: _) = _
      rw [lines_cut ht.one_line, ht.dropCarriageReturn]
      exact congrArg _ (ih hts)

/-- Kept texts on lines of their own are kept as they stand, with the numbers 1, 2, 3 and so on. -/
theorem ofText_intercalate {ts : List String} (h : ∀ t ∈ ts, Kept t) :
    ofText ("\n".intercalate ts) = (ts.zipIdx 1).map fun e => ⟨e.2, e.1⟩ := by
  rw [ofText, lines_intercalate h]
  generalize 1 = n
  induction ts generalizing n with
  | nil => rfl
  | cons t ts ih =>
    obtain ⟨ht, hts⟩ := List.forall_mem_cons.1 h
    simp only [List.map_cons, List.zipIdx_cons, List.filterMap_cons, ht.ofLine? n, ih hts]

/-- The source lines of a text come in the order of their numbers, and are what is left of those
lines of the text of which anything is left without their comments and the blanks around. What is
kept is trimmed, on one line and without a comment mark, and on lines of its own it is kept again,
with nothing dropped, split or merged. -/
theorem ofText_exact (s : String) :
    ((ofText s).Pairwise fun a b => a.number < b.number) ∧
      (∀ n t, ⟨n, t⟩ ∈ ofText s ↔
        t ≠ "" ∧ ∃ line k, LineAt s.toList n line ∧ CodeOf line k ∧ TrimsTo k t.toList) ∧
      (∀ l ∈ ofText s, IsTrimmed l.text.toList ∧ ¬ ['/', '/'] <:+: l.text.toList ∧
        '\n' ∉ l.text.toList) ∧
      ofText ("\n".intercalate ((ofText s).map (·.text))) =
        (((ofText s).map (·.text)).zipIdx 1).map fun e => ⟨e.2, e.1⟩ := by
  refine ⟨ofText_numbers_increase s, fun n t => mem_ofText_iff, fun l hl => ?_, ?_⟩
  · have hk := kept_of_mem hl
    exact ⟨hk.isTrimmed, hk.no_mark, hk.one_line⟩
  · exact ofText_intercalate (List.forall_mem_map.2 fun l hl => kept_of_mem hl)

/-- A carriage return inside a line and a slash at its end stay; `/` and `/` on two lines are no
comment mark. -/
example : ofText "a\rb /\r\n/ c//d\n\n//\n \u00a0e" =
    [⟨1, "a\rb /"⟩, ⟨2, "/ c"⟩, ⟨5, "e"⟩] := by decide

end SourceLine

end HackVM
