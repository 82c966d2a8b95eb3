import HackVM.Text.Blank

/-!
# Splitting a text

`split p` cuts a text at every character that satisfies `p` and keeps the pieces between the
cuts, empty ones included, so a text with `n` such characters has `n + 1` pieces; `cut?` cuts
at the first one only. Words and lines are two ways to read the pieces.

* Words: the nonempty pieces between blanks.
* Lines: a piece that a line feed ended is a line, less one carriage return directly before
  that line feed; what follows the last line feed is a line if it is not empty.
-/

namespace HackVM.Text

/-- Put `c` in front of the first piece. -/
def consFirst (c : Char) : List (List Char) → List (List Char)
  | [] => [[c]]
  | l :: ls => (c :: l) :: ls

def split (p : Char → Bool) (s : List Char) : List (List Char) :=
  s.foldr (fun c ls => if p c then [] :: ls else consFirst c ls) [[]]

@[simp] theorem split_nil (p : Char → Bool) : split p [] = [[]] := rfl

theorem split_cons_of_pos {p : Char → Bool} {c : Char} (h : p c = true) (s : List Char) :
    split p (c :: s) = [] :: split p s := by
  simp [split, h]

theorem split_cons_of_neg {p : Char → Bool} {c : Char} (h : p c = false) (s : List Char) :
    split p (c :: s) = consFirst c (split p s) := by
  simp [split, h]

theorem split_ne_nil (p : Char → Bool) (s : List Char) : split p s ≠ [] := by
  cases s with
  | nil => simp
  | cons c s =>
    cases h : p c with
    | true => simp [split_cons_of_pos h]
    | false =>
      rw [split_cons_of_neg h]
      cases split p s <;> simp [consFirst]

/-- A text without a separator is one piece. -/
theorem split_of_forall {p : Char → Bool} {s : List Char} (h : ∀ c ∈ s, p c = false) :
    split p s = [s] := by
  induction s with
  | nil => rfl
  | cons c s ih =>
    rw [split_cons_of_neg (h c (by simp)), ih fun x hx => h x (by simp [hx])]
    rfl

theorem split_append_sep {p : Char → Bool} {s : List Char} (h : ∀ c ∈ s, p c = false) {c : Char}
    (hc : p c = true) (t : List Char) : split p (s ++ c :: t) = s :: split p t := by
  induction s with
  | nil => exact split_cons_of_pos hc t
  | cons a s ih =>
    rw [List.cons_append, split_cons_of_neg (h a (by simp)), ih fun x hx => h x (by simp [hx])]
    rfl

theorem mem_split {p : Char → Bool} {s piece : List Char} (h : piece ∈ split p s) :
    ∀ c ∈ piece, p c = false ∧ c ∈ s := by
  induction s generalizing piece with
  | nil => simp_all
  | cons a s ih =>
    cases ha : p a with
    | true =>
      rw [split_cons_of_pos ha] at h
      rcases List.mem_cons.1 h with rfl | h
      · simp
      · intro c hc
        exact ⟨(ih h c hc).1, by simp [(ih h c hc).2]⟩
    | false =>
      rw [split_cons_of_neg ha] at h
      cases hs : split p s with
      | nil => exact absurd hs (split_ne_nil p s)
      | cons l ls =>
        rw [hs] at ih h
        rcases List.mem_cons.1 h with rfl | h
        · intro c hc
          rcases List.mem_cons.1 hc with rfl | hc
          · exact ⟨ha, by simp⟩
          · have := ih (by simp) c hc
            exact ⟨this.1, by simp [this.2]⟩
        · intro c hc
          have := ih (by simp [h]) c hc
          exact ⟨this.1, by simp [this.2]⟩

/-! ## Cutting in two -/

/-- What stands before the first `c` and what stands after it. -/
def cut? (c : Char) (s : List Char) : Option (List Char × List Char) :=
  match s.dropWhile (· != c) with
  | [] => none
  | _ :: rest => some (s.takeWhile (· != c), rest)

theorem cut?_of_forall {c : Char} {s : List Char} (h : ∀ x ∈ s, x ≠ c) : cut? c s = none := by
  have h' : (s ++ []).dropWhile (· != c) = [] := by
    rw [List.dropWhile_append_of_pos fun x hx => by simpa using h x hx, List.dropWhile_nil]
  rw [List.append_nil] at h'
  rw [cut?, h']

theorem cut?_append {c : Char} {s : List Char} (h : ∀ x ∈ s, x ≠ c) (t : List Char) :
    cut? c (s ++ c :: t) = some (s, t) := by
  have h' : ∀ x ∈ s, (x != c) = true := fun x hx => by simpa using h x hx
  simp [cut?, List.dropWhile_append_of_pos h', List.takeWhile_append_of_pos h']

theorem eq_append_of_cut? {c : Char} {s front back : List Char}
    (h : cut? c s = some (front, back)) : s = front ++ c :: back := by
  rw [cut?] at h
  cases hd : s.dropWhile (· != c) with
  | nil =>
    rw [hd] at h
    cases h
  | cons x rest =>
    rw [hd] at h
    have hx : x = c := by
      have := List.head?_dropWhile_not (· != c) s
      simpa [hd] using this
    cases h
    rw [← hx, ← hd, hx, List.takeWhile_append_dropWhile]

/-! ## Words -/

def words (s : List Char) : List (List Char) :=
  (split isBlank s).filter fun w => !w.isEmpty

theorem words_nil : words [] = [] := rfl

theorem words_of_forall {s : List Char} (hs : s ≠ []) (h : ∀ c ∈ s, isBlank c = false) :
    words s = [s] := by
  simp [words, split_of_forall h, hs]

theorem words_append_blank {s : List Char} (hs : s ≠ []) (h : ∀ c ∈ s, isBlank c = false)
    {c : Char} (hc : isBlank c = true) (t : List Char) : words (s ++ c :: t) = s :: words t := by
  simp [words, split_append_sep h hc, hs]

theorem words_cons_blank {c : Char} (hc : isBlank c = true) (s : List Char) :
    words (c :: s) = words s := by
  simp [words, split_cons_of_pos hc]

theorem words_blanks_append {front : List Char} (h : ∀ c ∈ front, isBlank c = true)
    (s : List Char) : words (front ++ s) = words s := by
  induction front with
  | nil => rfl
  | cons c front ih =>
    rw [List.cons_append, words_cons_blank (h c (by simp)), ih fun x hx => h x (by simp [hx])]

/-- The words of a text, told without cuts: a text of blanks has none; the first word stands
behind blanks, has no blank in it, and reaches to a blank or to the end. -/
inductive HasWords : List Char → List (List Char) → Prop
  | none {s : List Char} : (∀ c ∈ s, isBlank c = true) → HasWords s []
  | first (front w : List Char) {rest : List Char} {ws : List (List Char)} :
    (∀ c ∈ front, isBlank c = true) → w ≠ [] → (∀ c ∈ w, isBlank c = false) →
    (∀ c ∈ rest.head?, isBlank c = true) → HasWords rest ws →
    HasWords (front ++ (w ++ rest)) (w :: ws)

theorem HasWords.cons_blank {c : Char} {s : List Char} {ws : List (List Char)}
    (hc : isBlank c = true) (h : HasWords s ws) : HasWords (c :: s) ws := by
  cases h with
  | none hs => exact .none (List.forall_mem_cons.2 ⟨hc, hs⟩)
  | @first front w rest ws hf hw hb hr h =>
    exact .first (c :: front) w (List.forall_mem_cons.2 ⟨hc, hf⟩) hw hb hr h

theorem exists_hasWords (s : List Char) : ∃ ws, HasWords s ws := by
  induction s with
  | nil => exact ⟨[], .none (by simp)⟩
  | cons c s ih =>
    obtain ⟨ws, h⟩ := ih
    cases hc : isBlank c with
    | true => exact ⟨ws, h.cons_blank hc⟩
    | false =>
      cases h with
      | none hs =>
        exact ⟨[[c]], .first [] [c] (by simp) (by simp) (by simpa using hc)
          (fun x hx => hs x (List.mem_of_head? hx)) (.none hs)⟩
      | @first front w rest ws hf hw hb hr h =>
        -- the character begins the first word if no blank stands in front of that
        cases front with
        | nil =>
          exact ⟨(c :: w) :: ws, .first [] (c :: w) (by simp) (by simp)
            (List.forall_mem_cons.2 ⟨hc, hb⟩) hr h⟩
        | cons b front =>
          exact ⟨[c] :: w :: ws, .first [] [c] (by simp) (by simp) (by simpa using hc)
            (by simpa using hf b (by simp)) (.first (b :: front) w hf hw hb hr h)⟩

theorem words_of_hasWords {s : List Char} {ws : List (List Char)} (h : HasWords s ws) :
    words s = ws := by
  induction h with
  | @none s hs =>
    have hw := words_blanks_append hs []
    rwa [List.append_nil] at hw
  | @first front w rest ws hf hw hb hr h ih =>
    rw [words_blanks_append hf]
    cases rest with
    | nil =>
      rw [List.append_nil, words_of_forall hw hb, ← ih]
      rfl
    | cons c rest =>
      have hc : isBlank c = true := hr c rfl
      rw [words_append_blank hw hb hc, ← words_cons_blank hc, ih]

/-- These are the words of the text and no others. -/
theorem words_eq_iff {s : List Char} {ws : List (List Char)} : words s = ws ↔ HasWords s ws := by
  constructor
  · rintro rfl
    obtain ⟨ws, h⟩ := exists_hasWords s
    rwa [words_of_hasWords h]
  · exact words_of_hasWords

example : words [' ', 'a', 'b', '\t', ' ', 'c'] = [['a', 'b'], ['c']] := by decide

/-! ## Lines -/

/-- Without a carriage return at the very end. -/
def dropCarriageReturn (s : List Char) : List Char :=
  if s.getLast? = some '\r' then s.dropLast else s

def lines (s : List Char) : List (List Char) :=
  let pieces := split (· == '\n') s
  let last := pieces.getLast (split_ne_nil _ s)
  pieces.dropLast.map dropCarriageReturn ++ if last.isEmpty then [] else [last]

theorem lines_nil : lines [] = [] := rfl

theorem lines_append_newline {s : List Char} (h : ∀ c ∈ s, (c == '\n') = false) (t : List Char) :
    lines (s ++ '\n' :: t) = dropCarriageReturn s :: lines t := by
  have hs : split (· == '\n') (s ++ '\n' :: t) = s :: split (· == '\n') t :=
    split_append_sep h (by decide) t
  have hne := split_ne_nil (· == '\n') t
  simp only [lines, hs, List.dropLast_cons_of_ne_nil hne, List.getLast_cons hne, List.map_cons,
    List.cons_append]

example : lines ['a', '\r', '\n', '\n', 'b', '\r'] = [['a'], [], ['b', '\r']] := by decide
example : lines ['a', '\r', '\r', '\n'] = [['a', '\r']] := by decide

end HackVM.Text
