/-!
# Repetition in a list

The first element that repeats an earlier one. There is none exactly when the elements are
distinct.
-/

namespace HackVM

/-- The first element, in order, that is equal to an earlier one or among `seen`. -/
def firstRepeatedFrom {α : Type} [BEq α] (seen : List α) : List α → Option α
  | [] => none
  | a :: l => if seen.contains a then some a else firstRepeatedFrom (a :: seen) l

def firstRepeated {α : Type} [BEq α] (l : List α) : Option α := firstRepeatedFrom [] l

theorem firstRepeatedFrom_eq_none_iff {α : Type} [BEq α] [LawfulBEq α] {seen l : List α} :
    firstRepeatedFrom seen l = none ↔ l.Nodup ∧ ∀ a ∈ l, a ∉ seen := by
  induction l generalizing seen with
  | nil => simp [firstRepeatedFrom]
  | cons a l ih =>
    by_cases h : a ∈ seen
    · simp [firstRepeatedFrom, h]
    · simp only [firstRepeatedFrom, List.contains_eq_mem, h, decide_false, Bool.false_eq_true,
        if_false, ih, List.nodup_cons, List.mem_cons, not_or, forall_eq_or_imp, not_false_eq_true,
        true_and]
      grind

theorem firstRepeated_eq_none_iff {α : Type} [BEq α] [LawfulBEq α] {l : List α} :
    firstRepeated l = none ↔ l.Nodup := by
  simp [firstRepeated, firstRepeatedFrom_eq_none_iff]

theorem firstRepeatedFrom_eq_some_iff {α : Type} [BEq α] [LawfulBEq α] {seen l : List α} {a : α} :
    firstRepeatedFrom seen l = some a ↔
      ∃ p s, l = p ++ a :: s ∧ (a ∈ p ∨ a ∈ seen) ∧ p.Nodup ∧ ∀ b ∈ p, b ∉ seen := by
  induction l generalizing seen with
  | nil => simp [firstRepeatedFrom]
  | cons b l ih =>
    by_cases h : b ∈ seen
    · simp only [firstRepeatedFrom, List.contains_eq_mem, h, decide_true, if_true,
        Option.some.injEq]
      constructor
      · rintro rfl
        exact ⟨[], l, rfl, .inr h, by simp, by simp⟩
      · rintro ⟨p, s, hl, -, -, hp⟩
        cases p with
        | nil => exact (List.cons.inj hl).1
        | cons c p =>
          obtain ⟨rfl, -⟩ := List.cons.inj hl
          exact absurd h (hp b (by simp))
    · simp only [firstRepeatedFrom, List.contains_eq_mem, h, decide_false, Bool.false_eq_true,
        if_false, ih]
      constructor
      · rintro ⟨p, s, rfl, ha, hn, hp⟩
        refine ⟨b :: p, s, rfl, by grind, ?_, by grind⟩
        exact List.nodup_cons.2 ⟨fun hb => hp b hb (by simp), hn⟩
      · rintro ⟨p, s, hl, ha, hn, hp⟩
        cases p with
        | nil =>
          obtain ⟨rfl, -⟩ := List.cons.inj hl
          grind
        | cons c p =>
          obtain ⟨rfl, rfl⟩ := List.cons.inj hl
          rw [List.nodup_cons] at hn
          exact ⟨p, s, rfl, by grind, hn.2, by grind⟩

/-- What is found repeats an element in front of it, and nothing in front of it repeats. -/
theorem firstRepeated_eq_some_iff {α : Type} [BEq α] [LawfulBEq α] {l : List α} {a : α} :
    firstRepeated l = some a ↔ ∃ p s, l = p ++ a :: s ∧ a ∈ p ∧ p.Nodup := by
  simp [firstRepeated, firstRepeatedFrom_eq_some_iff]

example : firstRepeated [3, 1, 2, 1, 3] = some 1 := by decide

end HackVM
