import HackVM.Machine

/-!
# Cells of memory

Reading and writing cells by their address. A write out of range changes nothing. The stack
pointer is in cell 0 and points at the first free cell above the stack.
-/

namespace HackVM

abbrev Memory := Vector Word MemoryMap.memorySize

namespace Memory

def read (M : Memory) (a : Word) : Word := M[a.toNat]?.getD 0

def write (M : Memory) (a v : Word) : Memory := M.setIfInBounds a.toNat v

/-! ## Reading what was written -/

theorem inRange_iff {a : Word} : Machine.inRange a = true ↔ a.toNat ≤ maxAddress := by
  show decide (a.toNat < MemoryMap.memorySize) = true ↔ a.toNat ≤ maxAddress
  rw [decide_eq_true_eq]
  show a.toNat < 32768 ↔ a.toNat ≤ 32767
  omega

theorem read_write_self {M : Memory} {a v : Word} (h : a.toNat ≤ maxAddress) :
    (M.write a v).read a = v := by
  have hs : a.toNat < MemoryMap.memorySize := Nat.lt_succ_of_le h
  rw [read, write, Vector.getElem?_setIfInBounds_self, if_pos hs]
  rfl

theorem read_write_of_ne {M : Memory} {a b v : Word} (h : a ≠ b) :
    (M.write a v).read b = M.read b := by
  have hn : a.toNat ≠ b.toNat := fun he => h (BitVec.eq_of_toNat_eq he)
  rw [read, write, Vector.getElem?_setIfInBounds_ne hn]
  rfl

theorem write_write_self (M : Memory) (a v w : Word) : (M.write a v).write a w = M.write a w := by
  apply Vector.ext
  intro i hi
  by_cases h : a.toNat = i
  · subst h
    simp [write]
  · simp [write, Vector.getElem_setIfInBounds_ne, h]

/-- Writing what is there changes nothing. -/
theorem write_of_read {M : Memory} {a v : Word} (h : M.read a = v) (ha : a.toNat ≤ maxAddress) :
    M.write a v = M := by
  have hs : a.toNat < MemoryMap.memorySize := Nat.lt_succ_of_le ha
  apply Vector.ext
  intro i hi
  by_cases hai : a.toNat = i
  · subst hai
    rw [read, Vector.getElem?_eq_getElem hs] at h
    simpa [write] using h.symm
  · simp [write, hai]

theorem write_comm {M : Memory} {a b v w : Word} (h : a ≠ b) :
    (M.write a v).write b w = (M.write b w).write a v := by
  have hn : a.toNat ≠ b.toNat := fun he => h (BitVec.eq_of_toNat_eq he)
  apply Vector.ext
  intro i hi
  by_cases ha : a.toNat = i
  · have hb : b.toNat ≠ i := fun hb => hn (ha.trans hb.symm)
    simp [write, ha, hb]
  · by_cases hb : b.toNat = i
    · simp [write, ha, hb]
    · simp [write, ha, hb]

/-! ## The stack -/

/-- The stack pointer. -/
def sp (M : Memory) : Word := M.read 0

/-- The value on top of the stack. -/
def top (M : Memory) : Word := M.read (M.sp - 1)

/-- The stack with a value more. -/
def push (M : Memory) (v : Word) : Memory := (M.write M.sp v).write 0 (M.sp + 1)

/-- The stack with a value less; the value stays where it is. -/
def drop (M : Memory) : Memory := M.write 0 (M.sp - 1)

/-- There is room for `n` more values, and the stack is clear of the fixed cells. -/
def HasRoom (M : Memory) (n : Nat) : Prop := 16 ≤ M.sp.toNat ∧ M.sp.toNat + n ≤ 32768

/-- There are `n` values on the stack, clear of the fixed cells. -/
def HasValues (M : Memory) (n : Nat) : Prop := 16 + n ≤ M.sp.toNat ∧ M.sp.toNat ≤ 32768

instance (M : Memory) (n : Nat) : Decidable (M.HasRoom n) :=
  inferInstanceAs (Decidable (_ ∧ _))

instance (M : Memory) (n : Nat) : Decidable (M.HasValues n) :=
  inferInstanceAs (Decidable (_ ∧ _))

theorem sp_write_of_ne {M : Memory} {a v : Word} (h : a ≠ 0) : (M.write a v).sp = M.sp :=
  read_write_of_ne h

@[simp] theorem sp_push (M : Memory) (v : Word) : (M.push v).sp = M.sp + 1 :=
  read_write_self (by decide)

@[simp] theorem sp_drop (M : Memory) : M.drop.sp = M.sp - 1 := read_write_self (by decide)

theorem read_push {M : Memory} {v b : Word} (h : b ≠ 0) (hs : b ≠ M.sp) :
    (M.push v).read b = M.read b := by
  rw [push, read_write_of_ne h.symm, read_write_of_ne hs.symm]

theorem read_drop {M : Memory} {b : Word} (h : b ≠ 0) : M.drop.read b = M.read b :=
  read_write_of_ne h.symm

theorem read_sp_push {M : Memory} {v : Word} (h : M.HasRoom 1) : (M.push v).read M.sp = v := by
  have h0 : (0 : Word) ≠ M.sp := by
    intro h0
    have hr := h.1
    rw [← h0] at hr
    exact absurd hr (by decide)
  have hr : M.sp.toNat ≤ maxAddress := Nat.le_of_lt_succ (Nat.lt_of_succ_le h.2)
  rw [push, read_write_of_ne h0, read_write_self hr]

namespace HasRoom

variable {M : Memory} {n : Nat}

theorem mono {k : Nat} (h : M.HasRoom n) (hk : k ≤ n) : M.HasRoom k :=
  ⟨h.1, Nat.le_trans (Nat.add_le_add_left hk _) h.2⟩

/-- The stack pointer is none of the fixed cells. -/
theorem sp_ne (h : M.HasRoom n) {c : Word} (hc : c.toNat < 16) : M.sp ≠ c := by
  intro he
  have hs := h.1
  rw [he] at hs
  omega

theorem push (h : M.HasRoom (n + 1)) (v : Word) : (M.push v).HasRoom n := by
  have h₁ := h.1
  have h₂ := h.2
  have hs : (M.sp + 1).toNat = M.sp.toNat + 1 := by
    rw [BitVec.toNat_add, show (1 : Word).toNat = 1 from rfl]
    omega
  rw [HasRoom, sp_push, hs]
  omega

theorem write (h : M.HasRoom n) {a : Word} (ha : a ≠ 0) (v : Word) : (M.write a v).HasRoom n := by
  rw [HasRoom, sp_write_of_ne ha]
  exact h

end HasRoom

namespace HasValues

variable {M : Memory} {n : Nat}

theorem mono {k : Nat} (h : M.HasValues n) (hk : k ≤ n) : M.HasValues k :=
  ⟨Nat.le_trans (Nat.add_le_add_left hk _) h.1, h.2⟩

theorem toNat_sub (h : M.HasValues n) {k : Word} (hk : k.toNat ≤ n) :
    (M.sp - k).toNat = M.sp.toNat - k.toNat := by
  have h₁ := h.1
  have h₂ := h.2
  rw [BitVec.toNat_sub]
  omega

theorem toNat_sub_one (h : M.HasValues (n + 1)) : (M.sp - 1).toNat = M.sp.toNat - 1 :=
  h.toNat_sub (k := 1) (Nat.le_add_left 1 n)

theorem drop (h : M.HasValues (n + 1)) : M.drop.HasValues n := by
  have h₁ := h.1
  have h₂ := h.2
  have hs := h.toNat_sub_one
  rw [HasValues, sp_drop, hs]
  omega

theorem hasRoom_drop (h : M.HasValues (n + 1)) : M.drop.HasRoom 1 := by
  have h₁ := h.1
  have h₂ := h.2
  have hs := h.toNat_sub_one
  rw [HasRoom, sp_drop, hs]
  omega

/-- The top of the stack is none of the fixed cells. -/
theorem sub_one_ne (h : M.HasValues (n + 1)) {c : Word} (hc : c.toNat < 16) : M.sp - 1 ≠ c := by
  intro he
  have h₁ := h.1
  have hs := h.toNat_sub_one
  rw [he] at hs
  omega

theorem toNat_sub_one_le (h : M.HasValues (n + 1)) : (M.sp - 1).toNat ≤ maxAddress := by
  have h₂ := h.2
  have hs := h.toNat_sub_one
  show _ ≤ 32767
  omega

theorem write (h : M.HasValues n) {a : Word} (ha : a ≠ 0) (v : Word) :
    (M.write a v).HasValues n := by
  rw [HasValues, sp_write_of_ne ha]
  exact h

/-- Writing a fixed cell other than the stack pointer leaves the top of the stack. -/
theorem top_write (h : M.HasValues (n + 1)) {c : Word} (h0 : c ≠ 0) (hc : c.toNat < 16)
    (v : Word) : (M.write c v).top = M.top := by
  rw [top, sp_write_of_ne h0, read_write_of_ne (h.sub_one_ne hc).symm]
  rfl

/-- What was on top of the stack is still there behind a pop. -/
theorem read_drop_sub_one (h : M.HasValues (n + 1)) : M.drop.read (M.sp - 1) = M.top :=
  read_drop (h.sub_one_ne (by decide))

end HasValues

end Memory

end HackVM
