/-!
# The order of texts

Texts are ordered character by character, a character by its code point, and a text comes
before the longer ones that begin with it. This is also the order of their bytes in UTF-8.
-/

namespace HackVM.Text

/-- Whether the first text is the second or comes before it. -/
def precedes : List Char → List Char → Bool
  | [], _ => true
  | _ :: _, [] => false
  | a :: s, b :: t => a.toNat < b.toNat || a.toNat == b.toNat && precedes s t

theorem precedes_total (s t : List Char) : (precedes s t || precedes t s) = true := by
  induction s generalizing t with
  | nil => rfl
  | cons a s ih =>
    cases t with
    | nil => rfl
    | cons b t =>
      simp only [precedes, Bool.or_eq_true, Bool.and_eq_true, decide_eq_true_eq,
        beq_iff_eq] at ih ⊢
      rcases Nat.lt_trichotomy a.toNat b.toNat with h | h | h
      · exact .inl (.inl h)
      · exact (ih t).imp (fun hs => .inr ⟨h, hs⟩) fun ht => .inr ⟨h.symm, ht⟩
      · exact .inr (.inl h)

theorem precedes_trans {s t u : List Char} (h : precedes s t = true) (h' : precedes t u = true) :
    precedes s u = true := by
  induction s generalizing t u with
  | nil => rfl
  | cons a s ih =>
    cases t with
    | nil => simp [precedes] at h
    | cons b t =>
      cases u with
      | nil => simp [precedes] at h'
      | cons c u =>
        simp only [precedes, Bool.or_eq_true, Bool.and_eq_true, decide_eq_true_eq,
          beq_iff_eq] at h h' ⊢
        rcases h with h | ⟨h, hs⟩ <;> rcases h' with h' | ⟨h', ht⟩
        · exact .inl (by omega)
        · exact .inl (by omega)
        · exact .inl (by omega)
        · exact .inr ⟨by omega, ih hs ht⟩

theorem precedes_antisymm {s t : List Char} (h : precedes s t = true) (h' : precedes t s = true) :
    s = t := by
  induction s generalizing t with
  | nil =>
    cases t with
    | nil => rfl
    | cons b t => simp [precedes] at h'
  | cons a s ih =>
    cases t with
    | nil => simp [precedes] at h
    | cons b t =>
      simp only [precedes, Bool.or_eq_true, Bool.and_eq_true, decide_eq_true_eq,
        beq_iff_eq] at h h'
      rcases h with h | ⟨h, hs⟩ <;> rcases h' with h' | ⟨h', ht⟩
      · omega
      · omega
      · omega
      · rw [ih hs ht, Char.toNat_inj.1 h]

end HackVM.Text
