/-!
# Blank characters

The characters with the Unicode property `White_Space`, as ranges of code points, and
trimming a text of them at both ends. A trimmed text begins and ends with a character that
is not blank, and trimming it again changes nothing.
-/

namespace HackVM.Text

/-- First and last code point of each run of blank characters. -/
def blankRanges : List (Nat × Nat) :=
  [(0x9, 0xD), (0x20, 0x20), (0x85, 0x85), (0xA0, 0xA0), (0x1680, 0x1680), (0x2000, 0x200A),
    (0x2028, 0x2029), (0x202F, 0x202F), (0x205F, 0x205F), (0x3000, 0x3000)]

def isBlank (c : Char) : Bool :=
  blankRanges.any fun r => r.1 ≤ c.toNat && c.toNat ≤ r.2

/-! ## Trimming -/

def trimStart (s : List Char) : List Char := s.dropWhile isBlank

def trimEnd (s : List Char) : List Char := (s.reverse.dropWhile isBlank).reverse

/-- The text without the blanks at its two ends. -/
def trim (s : List Char) : List Char := trimEnd (trimStart s)

/-- Neither the first nor the last character is blank. -/
def IsTrimmed (s : List Char) : Prop :=
  (∀ c ∈ s.head?, isBlank c = false) ∧ ∀ c ∈ s.getLast?, isBlank c = false

theorem trimStart_cons_of_blank {c : Char} (s : List Char) (h : isBlank c = true) :
    trimStart (c :: s) = trimStart s := by
  simp [trimStart, h]

theorem trimStart_of_head {s : List Char} (h : ∀ c ∈ s.head?, isBlank c = false) :
    trimStart s = s := by
  cases s with
  | nil => rfl
  | cons c s => simp [trimStart, h c (by simp)]

theorem trimEnd_of_getLast {s : List Char} (h : ∀ c ∈ s.getLast?, isBlank c = false) :
    trimEnd s = s := by
  have : s.reverse.dropWhile isBlank = s.reverse :=
    trimStart_of_head (s := s.reverse) (by simpa using h)
  simp [trimEnd, this]

theorem trim_of_isTrimmed {s : List Char} (h : IsTrimmed s) : trim s = s := by
  rw [trim, trimStart_of_head h.1, trimEnd_of_getLast h.2]

theorem head?_dropWhile_isBlank (s : List Char) :
    ∀ c ∈ (s.dropWhile isBlank).head?, isBlank c = false := by
  intro c hc
  have := List.head?_dropWhile_not isBlank s
  rw [Option.mem_def] at hc
  simpa [hc] using this

theorem getLast?_trimEnd (s : List Char) : ∀ c ∈ (trimEnd s).getLast?, isBlank c = false := by
  simpa [trimEnd] using head?_dropWhile_isBlank s.reverse

theorem trimStart_eq_append (s : List Char) :
    ∃ t, s = t ++ trimStart s ∧ ∀ c ∈ t, isBlank c = true :=
  ⟨s.takeWhile isBlank, List.takeWhile_append_dropWhile.symm, List.all_eq_true.1 List.all_takeWhile⟩

theorem trimEnd_eq_append (s : List Char) :
    ∃ t, s = trimEnd s ++ t ∧ ∀ c ∈ t, isBlank c = true := by
  obtain ⟨t, ht, hblank⟩ := trimStart_eq_append s.reverse
  refine ⟨t.reverse, ?_, ?_⟩
  · have hs := congrArg List.reverse ht
    rw [List.reverse_reverse, List.reverse_append] at hs
    exact hs
  · intro c hc
    exact hblank c (List.mem_reverse.1 hc)

/-- Trimming drops blanks only. -/
theorem exists_eq_append_trim (s : List Char) :
    ∃ front back, s = front ++ (trim s ++ back) ∧ (∀ c ∈ front, isBlank c = true) ∧
      ∀ c ∈ back, isBlank c = true := by
  obtain ⟨front, hfront, hf⟩ := trimStart_eq_append s
  obtain ⟨back, hback, hk⟩ := trimEnd_eq_append (trimStart s)
  rw [hback] at hfront
  exact ⟨front, back, hfront, hf, hk⟩

example : trim [' ', '\u0085', 'a', ' ', 'b', '\r'] = ['a', ' ', 'b'] := by decide

theorem mem_of_mem_trim {s : List Char} {c : Char} (h : c ∈ trim s) : c ∈ s := by
  obtain ⟨front, back, hs, -⟩ := exists_eq_append_trim s
  rw [hs]
  exact List.mem_append_right _ (List.mem_append_left _ h)

theorem mem_trim {s : List Char} {c : Char} (h : c ∈ s) (hb : isBlank c = false) : c ∈ trim s := by
  obtain ⟨front, back, hs, hf, hk⟩ := exists_eq_append_trim s
  rw [hs, List.mem_append, List.mem_append] at h
  rcases h with h | h | h
  · rw [hf c h] at hb
    cases hb
  · exact h
  · rw [hk c h] at hb
    cases hb

theorem trim_isTrimmed (s : List Char) : IsTrimmed (trim s) := by
  refine ⟨?_, getLast?_trimEnd _⟩
  intro c hc
  obtain ⟨t, ht, -⟩ := trimEnd_eq_append (trimStart s)
  have hs := head?_dropWhile_isBlank s c
  apply hs
  change c ∈ (trimStart s).head?
  rw [ht, List.head?_append]
  rw [Option.mem_def] at hc ⊢
  rw [show (trimEnd (trimStart s)).head? = some c from hc]
  rfl

theorem trim_trim (s : List Char) : trim (trim s) = trim s :=
  trim_of_isTrimmed (trim_isTrimmed s)

end HackVM.Text
