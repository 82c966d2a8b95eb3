import HackVM.Word

/-!
# Decimal numbers

A number is written in decimal digits without leading zeros. It is read more freely: one plus
sign may stand in front, and leading zeros are allowed. A number that does not fit into a word
is not read.
-/

namespace HackVM.Text

def decimal (n : Nat) : String := n.repr

/-- One or more digits, whatever their value. -/
def readDigits? (s : List Char) : Option Nat :=
  if s.isEmpty || !s.all Char.isDigit then none else some (Nat.ofDigitChars 10 s 0)

/-- At most one plus sign, then digits, with a value that fits into a word. -/
def readNumber? (s : List Char) : Option Nat :=
  (readDigits? (if s.head? = some '+' then s.tail else s)).filter (· ≤ maxWord)

theorem decimal_toList (n : Nat) : (decimal n).toList = Nat.toDigits 10 n :=
  Nat.toList_repr

theorem decimal_ne_nil (n : Nat) : (decimal n).toList ≠ [] := by
  rw [decimal_toList]
  exact Nat.toDigits_ne_nil

theorem isDigit_of_mem_decimal {n : Nat} {c : Char} (h : c ∈ (decimal n).toList) :
    c.isDigit = true := by
  rw [decimal_toList] at h
  exact Nat.isDigit_of_mem_toDigits (Nat.succ_pos 9) (Nat.le_refl 10) h

theorem readDigits?_decimal (n : Nat) : readDigits? (decimal n).toList = some n := by
  have h : (decimal n).toList.all Char.isDigit = true :=
    List.all_eq_true.2 fun _ hc => isDigit_of_mem_decimal hc
  have h' : (decimal n).toList.isEmpty = false := by
    simp [decimal_ne_nil n]
  rw [readDigits?, h, h', decimal_toList, Nat.ofDigitChars_toDigits (by decide) (by decide)]
  rfl

theorem head?_decimal_ne_plus (n : Nat) : (decimal n).toList.head? ≠ some '+' := by
  intro h
  have := isDigit_of_mem_decimal (List.mem_of_head? h)
  revert this; decide

/-- A written number is read back when it fits into a word, and not otherwise. -/
theorem readNumber?_decimal (n : Nat) :
    readNumber? (decimal n).toList = if n ≤ maxWord then some n else none := by
  rw [readNumber?, if_neg (head?_decimal_ne_plus n), readDigits?_decimal, Option.filter_some]
  simp only [decide_eq_true_eq]

/-- One or more digits with this value. -/
def Digits (s : List Char) (n : Nat) : Prop :=
  s ≠ [] ∧ (∀ c ∈ s, c.isDigit = true) ∧ Nat.ofDigitChars 10 s 0 = n

/-- The ways to write a number that fits into a word. -/
def Numeral (s : List Char) (n : Nat) : Prop :=
  n ≤ maxWord ∧ (Digits s n ∨ ∃ t, s = '+' :: t ∧ Digits t n)

theorem readDigits?_eq_some_iff {s : List Char} {n : Nat} :
    readDigits? s = some n ↔ Digits s n := by
  by_cases h : s ≠ [] ∧ ∀ c ∈ s, c.isDigit = true
  · have hs : (s.isEmpty || !s.all Char.isDigit) = false := by simpa using h
    rw [readDigits?, hs, if_neg Bool.false_ne_true, Option.some.injEq]
    constructor
    · intro hn
      exact ⟨h.1, h.2, hn⟩
    · intro hd
      exact hd.2.2
  · have hs : (s.isEmpty || !s.all Char.isDigit) = true := by
      rw [← Bool.not_eq_false]
      simpa using h
    rw [readDigits?, if_pos hs]
    constructor
    · intro hn
      cases hn
    · intro hd
      exact absurd ⟨hd.1, hd.2.1⟩ h

theorem Digits.head?_ne_plus {s : List Char} {n : Nat} (h : Digits s n) :
    s.head? ≠ some '+' := by
  intro hp
  exact absurd (h.2.1 _ (List.mem_of_head? hp)) (by decide)

/-- A number is read from the ways to write it and from nothing else. -/
theorem readNumber?_eq_some_iff {s : List Char} {n : Nat} :
    readNumber? s = some n ↔ Numeral s n := by
  rw [readNumber?, Option.filter_eq_some_iff, readDigits?_eq_some_iff, decide_eq_true_eq,
    and_comm, Numeral]
  apply and_congr_right
  intro _
  by_cases hp : s.head? = some '+'
  · obtain ⟨t, rfl⟩ := List.head?_eq_some_iff.1 hp
    rw [if_pos hp, List.tail_cons]
    constructor
    · intro h
      exact .inr ⟨t, rfl, h⟩
    · intro h
      rcases h with h | ⟨u, hu, h⟩
      · exact absurd hp h.head?_ne_plus
      · cases hu
        exact h
  · rw [if_neg hp]
    constructor
    · exact .inl
    · intro h
      rcases h with h | ⟨t, rfl, -⟩
      · exact h
      · exact absurd rfl hp

example : readNumber? ['+', '0', '7'] = some 7 ∧ readNumber? ['+', '+', '7'] = none := by decide

theorem decimal_injective {m n : Nat} (h : decimal m = decimal n) : m = n := by
  have := readDigits?_decimal m
  rw [h, readDigits?_decimal] at this
  exact (Option.some.inj this).symm

end HackVM.Text
