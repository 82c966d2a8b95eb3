import HackVM.Text.Order
import Mathlib

/-!
# The order of bytes

Texts are ordered character by character, and this is also the order of their bytes in UTF-8. A
character is written in one to four bytes: the last six bits of its code point in the last byte,
those before them in the byte before it, and what is left in the first one. The first byte also
tells how many there are, and it is larger for the longer forms, which belong to the larger code
points.
-/

namespace HackVM.Text

/-- The bytes of a text in UTF-8. -/
def bytes (s : String) : List UInt8 := s.toUTF8.data.toList

/-! ## Forms of a character -/

/-- A number in a first byte, which begins at `base` and holds `size` values, and `k` bytes of six
bits each behind it. -/
def utf8Form (base size : ℕ) : ℕ → ℕ → List UInt8
  | 0, m => [.ofNat (m % size + base)]
  | k + 1, m => utf8Form base size k (m / 64) ++ [.ofNat (m % 64 + 128)]

theorem utf8EncodeChar_eq (c : Char) :
    String.utf8EncodeChar c =
      if c.toNat ≤ 127 then utf8Form 0 128 0 c.toNat
      else if c.toNat ≤ 2047 then utf8Form 192 32 1 c.toNat
      else if c.toNat ≤ 65535 then utf8Form 224 16 2 c.toNat
      else utf8Form 240 8 3 c.toNat := by
  rw [String.utf8EncodeChar.eq_def, Char.toNat]
  dsimp only
  split_ifs with h
  · rw [utf8Form, Nat.mod_eq_of_lt (by omega), Nat.add_zero]
  · simp [utf8Form]
  · simp [utf8Form, Nat.div_div_eq_div_mul]
  · simp [utf8Form, Nat.div_div_eq_div_mul]

theorem toNat_ofNat_of_lt {m : ℕ} (h : m < 256) : (UInt8.ofNat m).toNat = m := by
  rw [UInt8.toNat_ofNat', Nat.mod_eq_of_lt h]

section

variable {base size : ℕ} (hbyte : base + size ≤ 256)

include hbyte

/-- The first byte is among those of the form. -/
theorem exists_utf8Form_eq_cons (hsize : 0 < size) (k m : ℕ) :
    ∃ b bs, utf8Form base size k m = b :: bs ∧ base ≤ b.toNat ∧ b.toNat < base + size := by
  induction k generalizing m with
  | zero =>
    have hm := Nat.mod_lt m hsize
    refine ⟨_, [], rfl, ?_⟩
    rw [toNat_ofNat_of_lt (by omega)]
    omega
  | succ k ih =>
    obtain ⟨b, bs, h, hb⟩ := ih (m / 64)
    exact ⟨b, bs ++ [.ofNat (m % 64 + 128)], by rw [utf8Form, h, List.cons_append], hb⟩

/-- Numbers in the same form have the order of their bytes, whatever follows. -/
theorem utf8Form_lt {k m n : ℕ} (h : m < n) (hn : n < 64 ^ k * size) (s t : List UInt8) :
    utf8Form base size k m ++ s < utf8Form base size k n ++ t := by
  induction k generalizing m n s t with
  | zero =>
    rw [Nat.pow_zero, Nat.one_mul] at hn
    have hlt : UInt8.ofNat (m % size + base) < UInt8.ofNat (n % size + base) := by
      rw [Nat.mod_eq_of_lt hn, Nat.mod_eq_of_lt (Nat.lt_trans h hn), UInt8.lt_iff_toNat_lt,
        toNat_ofNat_of_lt (by omega), toNat_ofNat_of_lt (by omega)]
      omega
    exact List.cons_lt_cons_iff.2 (.inl hlt)
  | succ k ih =>
    have hq : n / 64 < 64 ^ k * size := by
      rw [Nat.div_lt_iff_lt_mul (by decide)]
      rwa [Nat.pow_succ, Nat.mul_right_comm] at hn
    rw [utf8Form, utf8Form, List.append_assoc, List.append_assoc]
    rcases Nat.lt_or_ge (m / 64) (n / 64) with hd | hd
    · exact ih hd hq _ _
    -- with the same bits in front the last six decide
    · have heq : m / 64 = n / 64 := by omega
      have hlt : UInt8.ofNat (m % 64 + 128) < UInt8.ofNat (n % 64 + 128) := by
        rw [UInt8.lt_iff_toNat_lt, toNat_ofNat_of_lt (by omega), toNat_ofNat_of_lt (by omega)]
        omega
      rw [heq]
      exact List.append_left_lt (List.cons_lt_cons_iff.2 (.inl hlt))

/-- A form whose first byte is larger comes behind. -/
theorem utf8Form_lt_of_le {base' size' : ℕ} (hbyte' : base' + size' ≤ 256) (hsize : 0 < size)
    (hsize' : 0 < size') (h : base + size ≤ base') (k k' m n : ℕ) (s t : List UInt8) :
    utf8Form base size k m ++ s < utf8Form base' size' k' n ++ t := by
  obtain ⟨b, bs, hb, -, hlt⟩ := exists_utf8Form_eq_cons hbyte hsize k m
  obtain ⟨b', bs', hb', hle, -⟩ := exists_utf8Form_eq_cons hbyte' hsize' k' n
  rw [hb, hb', List.cons_append, List.cons_append]
  exact List.cons_lt_cons_iff.2 (.inl (UInt8.lt_iff_toNat_lt.2 (by omega)))

end

/-! ## Characters and texts -/

theorem toNat_lt_of_char (c : Char) : c.toNat < 0x110000 := by
  rcases c.valid with h | h
  · exact Nat.lt_trans h (by decide)
  · exact h.2

/-- The bytes of the smaller character are less, whatever follows. -/
theorem utf8EncodeChar_lt {a b : Char} (h : a.toNat < b.toNat) (s t : List UInt8) :
    String.utf8EncodeChar a ++ s < String.utf8EncodeChar b ++ t := by
  have hb := toNat_lt_of_char b
  rw [utf8EncodeChar_eq, utf8EncodeChar_eq]
  -- a smaller character has the same form or one that begins with a smaller byte
  split_ifs <;> first
    | omega
    | exact utf8Form_lt (by decide) h (by omega) s t
    | exact utf8Form_lt_of_le (by decide) (by decide) (by decide) (by decide) (by decide)
        _ _ _ _ s t

theorem utf8Encode_lt {s t : List Char} (h : precedes s t = true) (hne : s ≠ t) :
    s.flatMap String.utf8EncodeChar < t.flatMap String.utf8EncodeChar := by
  induction s generalizing t with
  | nil =>
    cases t with
    | nil => exact absurd rfl hne
    | cons b t =>
      rw [List.flatMap_cons, List.flatMap_nil]
      cases hb : String.utf8EncodeChar b with
      | nil => exact absurd hb String.utf8EncodeChar_ne_nil
      | cons x xs => exact List.nil_lt_cons x _
  | cons a s ih =>
    cases t with
    | nil => cases h
    | cons b t =>
      simp only [precedes, Bool.or_eq_true, Bool.and_eq_true, decide_eq_true_eq, beq_iff_eq] at h
      rw [List.flatMap_cons, List.flatMap_cons]
      rcases h with hlt | ⟨heq, hs⟩
      · exact utf8EncodeChar_lt hlt _ _
      · obtain rfl := Char.toNat_inj.1 heq
        exact List.append_left_lt (ih hs fun h => hne (h ▸ rfl))

theorem bytes_eq (s : String) : bytes s = s.toList.flatMap String.utf8EncodeChar := by
  rw [bytes, String.toUTF8_eq_toByteArray, ← String.utf8Encode_toList]
  simp [List.utf8Encode]

/-- The order of texts is that of their bytes. -/
theorem bytes_lt {s t : String} (h : precedes s.toList t.toList = true) (hne : s ≠ t) :
    bytes s < bytes t := by
  rw [bytes_eq, bytes_eq]
  exact utf8Encode_lt h fun h => hne (String.toList_inj.1 h)

end HackVM.Text
