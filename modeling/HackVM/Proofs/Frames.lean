import HackVM.Proofs.StackMachine

/-!
# Frames in memory

What opening and closing a frame does, cell by cell, and what carries over from one command to
the next while frames are open. The frames that are open since some call form a chain: the
saved `LCL` of a frame is the base of the frame outside, its saved `ARG` the arguments of that
frame, and no frame reaches into the one outside. A frame's header is the five words below its
base.
-/

namespace HackVM

namespace Memory

variable {M : Memory}

/-! ## Cells far from what is written -/

theorem read_write_of_fixed {k c v : Word} (hk : k.toNat < 16) (hc : 16 ≤ c.toNat) :
    (M.write k v).read c = M.read c := by
  refine read_write_of_ne ?_
  intro h
  rw [h] at hk
  omega

theorem read_push_of_ne {v c : Word} (hc : c.toNat ≠ 0) (hs : c.toNat ≠ M.sp.toNat) :
    (M.push v).read c = M.read c :=
  read_push (fun h => hc (by rw [h]; rfl)) fun h => hs (by rw [h])

/-! ## Opening a frame -/

theorem toNat_add_of_le {x k : Word} (h : x.toNat + k.toNat ≤ 65535) :
    (x + k).toNat = x.toNat + k.toNat := by
  rw [BitVec.toNat_add]
  omega

/-- The stack with a list of values more, the last one on top. -/
def pushAll (M : Memory) : List Word → Memory
  | [] => M
  | v :: vs => (M.push v).pushAll vs

theorem read_pushAll_of_lt {vs : List Word} (h : M.HasRoom vs.length) {c : Word}
    (hc : c.toNat ≠ 0) (hs : c.toNat < M.sp.toNat) : (M.pushAll vs).read c = M.read c := by
  induction vs generalizing M with
  | nil => rfl
  | cons v vs ih =>
    have hp : (M.push v).sp.toNat = M.sp.toNat + 1 := by
      have h₂ : M.sp.toNat + (vs.length + 1) ≤ 32768 := h.2
      rw [sp_push, toNat_add_of_le (show M.sp.toNat + 1 ≤ 65535 by omega)]
      rfl
    rw [pushAll, ih (h.push v) (by omega), read_push_of_ne hc (by omega)]

/-- The values are on the stack in order. -/
theorem read_pushAll {vs : List Word} (h : M.HasRoom vs.length) {c : Word} {i : Nat} {v : Word}
    (hc : c.toNat = M.sp.toNat + i) (hv : vs[i]? = some v) : (M.pushAll vs).read c = v := by
  induction vs generalizing M i with
  | nil => simp at hv
  | cons w vs ih =>
    have h₁ := h.1
    have h₂ : M.sp.toNat + (vs.length + 1) ≤ 32768 := h.2
    have hp : (M.push w).sp.toNat = M.sp.toNat + 1 := by
      rw [sp_push, toNat_add_of_le (show M.sp.toNat + 1 ≤ 65535 by omega)]
      rfl
    cases i with
    | zero =>
      have he : c = M.sp := BitVec.eq_of_toNat_eq hc
      rw [pushAll, read_pushAll_of_lt (h.push w) (by omega) (by omega), he,
        read_sp_push (h.mono (by simp))]
      exact Option.some.inj hv
    | succ i => exact ih (h.push w) (i := i) (by omega) hv

theorem sp_pushAll (vs : List Word) : (M.pushAll vs).sp = M.sp + BitVec.ofNat 16 vs.length := by
  induction vs generalizing M with
  | nil => exact (BitVec.add_zero M.sp).symm
  | cons v vs ih =>
    rw [pushAll, ih, sp_push, List.length_cons, BitVec.add_assoc, Nat.add_comm, BitVec.ofNat_add]
    rfl

/-- Pushes leave the pointers of the frame alone. -/
theorem read_push_of_lt {v c : Word} (h : M.HasRoom 1) (hc : c.toNat ≠ 0) (hk : c.toNat < 16) :
    (M.push v).read c = M.read c := by
  have h₁ := h.1
  exact read_push_of_ne hc (by omega)

theorem openFrame_eq (h : M.HasRoom 5) (back : Word) (args : Nat) :
    M.openFrame back args =
      ((M.pushAll [back, M.read 1, M.read 2, M.read 3, M.read 4]).write 2
        (M.sp - BitVec.ofNat 16 args)).write 1 (M.sp + 5) := by
  let M₁ := M.push back
  let M₂ := M₁.push (M.read 1)
  let M₃ := M₂.push (M.read 2)
  let M₄ := M₃.push (M.read 3)
  have h₁ : M₁.HasRoom 4 := h.push _
  have h₂ : M₂.HasRoom 3 := h₁.push _
  have h₃ : M₃.HasRoom 2 := h₂.push _
  have r₁ : ∀ c : Word, c.toNat ≠ 0 → c.toNat < 16 → M₁.read c = M.read c :=
    fun c h0 hk => read_push_of_lt (h.mono (by decide)) h0 hk
  have r₂ : ∀ c : Word, c.toNat ≠ 0 → c.toNat < 16 → M₂.read c = M.read c :=
    fun c h0 hk => (read_push_of_lt (h₁.mono (by decide)) h0 hk).trans (r₁ c h0 hk)
  have r₃ : ∀ c : Word, c.toNat ≠ 0 → c.toNat < 16 → M₃.read c = M.read c :=
    fun c h0 hk => (read_push_of_lt (h₂.mono (by decide)) h0 hk).trans (r₂ c h0 hk)
  have r₄ : ∀ c : Word, c.toNat ≠ 0 → c.toNat < 16 → M₄.read c = M.read c :=
    fun c h0 hk => (read_push_of_lt (h₃.mono (by decide)) h0 hk).trans (r₃ c h0 hk)
  have hs : (M₄.push (M.read 4)).sp = M.sp + 5 :=
    sp_pushAll [back, M.read 1, M.read 2, M.read 3, M.read 4]
  have ha : M.sp + 5 - 5 = M.sp := BitVec.add_sub_cancel M.sp 5
  have hw : ((M₄.push (M.read 4)).write 2 (M.sp - BitVec.ofNat 16 args)).sp = M.sp + 5 := by
    rw [sp_write_of_ne (by decide), hs]
  rw [openFrame, r₁ 1 (by decide) (by decide)]
  show (((((M₂.push (M₂.read 2)).push _).push _).write 2 _).write 1 _) = _
  rw [r₂ 2 (by decide) (by decide)]
  show ((((M₃.push (M₃.read 3)).push _).write 2 _).write 1 _) = _
  rw [r₃ 3 (by decide) (by decide)]
  show (((M₄.push (M₄.read 4)).write 2 _).write 1 _) = _
  rw [r₄ 4 (by decide) (by decide), hs, ha, hw]
  rfl

/-- Cell `k` below the base of a frame. -/
theorem toNat_base_sub {l k : Word} (hl : 21 ≤ l.toNat) (hk : k.toNat ≤ 5) :
    (l - k).toNat = l.toNat - k.toNat := by
  rw [BitVec.toNat_sub]
  omega

/-- The base of the new frame. -/
theorem HasRoom.toNat_base (h : M.HasRoom 5) : (M.sp + 5).toNat = M.sp.toNat + 5 := by
  have h₂ := h.2
  exact toNat_add_of_le (show M.sp.toNat + 5 ≤ 65535 by omega)

theorem HasRoom.toNat_sp_sub {n args : Nat} (h : M.HasRoom n) (ha : args ≤ M.sp.toNat) :
    (M.sp - BitVec.ofNat 16 args).toNat = M.sp.toNat - args := by
  have h₂ := h.2
  rw [BitVec.toNat_sub, BitVec.toNat_ofNat]
  omega

section

variable (h : M.HasRoom 5) (back : Word) (args : Nat)

include h

theorem sp_openFrame : (M.openFrame back args).sp = M.sp + 5 := by
  rw [openFrame_eq h, sp_write_of_ne (by decide), sp_write_of_ne (by decide), sp_pushAll]
  rfl

theorem read_openFrame_lcl : (M.openFrame back args).read 1 = M.sp + 5 := by
  rw [openFrame_eq h]
  exact read_write_self (by decide)

theorem read_openFrame_arg : (M.openFrame back args).read 2 = M.sp - BitVec.ofNat 16 args := by
  rw [openFrame_eq h, read_write_of_ne (by decide)]
  exact read_write_self (by decide)

/-- The header of the new frame, by the distance below its base. -/
theorem read_openFrame_header {i v : Word} (h₁ : 1 ≤ i.toNat) (h₂ : i.toNat ≤ 5)
    (hv : [back, M.read 1, M.read 2, M.read 3, M.read 4][5 - i.toNat]? = some v) :
    (M.openFrame back args).read (M.sp + 5 - i) = v := by
  have hs := h.1
  have hl := h.toNat_base
  have hc : (M.sp + 5 - i).toNat = M.sp.toNat + (5 - i.toNat) := by
    rw [toNat_base_sub (by omega) h₂, hl]
    omega
  rw [openFrame_eq h, read_write_of_fixed (by decide) (by omega),
    read_write_of_fixed (by decide) (by omega)]
  exact read_pushAll h hc hv

/-- What was on the stack stays. -/
theorem read_openFrame_of_lt {c : Word} (hc : 16 ≤ c.toNat) (hs : c.toNat < M.sp.toNat) :
    (M.openFrame back args).read c = M.read c := by
  rw [openFrame_eq h, read_write_of_fixed (by decide) hc, read_write_of_fixed (by decide) hc]
  exact read_pushAll_of_lt h (by omega) hs

end

/-! ## Closing a frame -/

/-- The saved pointers are still there when the return value is in place. -/
theorem read_saved (hf : M.HasFrame) (h : (M.read 2).toNat + 5 ≤ (M.read 1).toNat) {k x y v : Word}
    (h₁ : 1 ≤ k.toNat) (h₂ : k.toNat ≤ 4) :
    (((M.write 15 x).write 14 y).write (M.read 2) v).read (M.read 1 - k) =
      M.read (M.read 1 - k) := by
  have ht := toNat_base_sub hf.1 (show k.toNat ≤ 5 by omega)
  have hl := hf.1
  have hn : M.read 2 ≠ M.read 1 - k := by
    intro he
    have hc := congrArg BitVec.toNat he
    omega
  rw [read_write_of_ne hn, read_write_of_fixed (by decide) (by omega),
    read_write_of_fixed (by decide) (by omega)]

/-- The words of a frame that a return takes down, if its arguments lie below its header. -/
theorem closeFrame_eq (hf : M.HasFrame) (h : (M.read 2).toNat + 5 ≤ (M.read 1).toNat) :
    M.closeFrame =
      ((((((((M.write 15 (M.read (M.read 1 - 5))).write 14 (M.read 2)).write (M.read 2) M.top).write
        4 (M.read (M.read 1 - 1))).write 3 (M.read (M.read 1 - 2))).write
        2 (M.read (M.read 1 - 3))).write 1 (M.read (M.read 1 - 4))).write 0 (M.read 2 + 1)) := by
  have hl := hf.1
  have ha := hf.2.2.1
  let M₁ := M.write 15 (M.read (M.read 1 - 5))
  let M₂ := M₁.write 14 (M.read 2)
  let M₃ := M₂.write (M.read 2) M.top
  let M₄ := M₃.write 4 (M.read (M.read 1 - 1))
  let M₅ := M₄.write 3 (M.read (M.read 1 - 2))
  let M₆ := M₅.write 2 (M.read (M.read 1 - 3))
  let M₇ := M₆.write 1 (M.read (M.read 1 - 4))
  have far : ∀ k : Word, k.toNat ≤ 4 → 16 ≤ (M.read 1 - k).toNat := by
    intro k h₂
    rw [toNat_base_sub hl (show k.toNat ≤ 5 by omega)]
    omega
  have r₄ : M₃.read (M.read 1 - 1) = M.read (M.read 1 - 1) :=
    read_saved hf h (by decide) (by decide)
  have r₃ : M₄.read (M.read 1 - 2) = M.read (M.read 1 - 2) := by
    rw [read_write_of_fixed (by decide) (far 2 (by decide)),
      read_saved hf h (by decide) (by decide)]
  have r₂ : M₅.read (M.read 1 - 3) = M.read (M.read 1 - 3) := by
    rw [read_write_of_fixed (by decide) (far 3 (by decide)),
      read_write_of_fixed (by decide) (far 3 (by decide)), read_saved hf h (by decide) (by decide)]
  have r₁ : M₆.read (M.read 1 - 4) = M.read (M.read 1 - 4) := by
    rw [read_write_of_fixed (by decide) (far 4 (by decide)),
      read_write_of_fixed (by decide) (far 4 (by decide)),
      read_write_of_fixed (by decide) (far 4 (by decide)), read_saved hf h (by decide) (by decide)]
  have hn : (2 : Word) ≠ 15 := by decide
  have ha14 : M₁.read 2 = M.read 2 := read_write_of_ne hn.symm
  have hs14 : M₂.read 14 = M.read 2 := read_write_self (by decide)
  have h14 : M₇.read 14 = M.read 2 := by
    have hne : M.read 2 ≠ 14 := by
      intro he
      rw [he] at ha
      exact absurd ha (by decide)
    rw [read_write_of_ne (by decide), read_write_of_ne (by decide), read_write_of_ne (by decide),
      read_write_of_ne (by decide), read_write_of_ne hne, hs14]
  rw [closeFrame, ha14]
  show (((((M₂.write (M₂.read 14) M.top).write 4 _).write 3 _).write 2 _).write 1 _).write 0 _ = _
  rw [hs14]
  show ((((M₃.write 4 (M₃.read (M.read 1 - 1))).write 3 _).write 2 _).write 1 _).write 0 _ = _
  rw [r₄]
  show (((M₄.write 3 (M₄.read (M.read 1 - 2))).write 2 _).write 1 _).write 0 _ = _
  rw [r₃]
  show ((M₅.write 2 (M₅.read (M.read 1 - 3))).write 1 _).write 0 _ = _
  rw [r₂]
  show (M₆.write 1 (M₆.read (M.read 1 - 4))).write 0 _ = _
  rw [r₁]
  show M₇.write 0 (M₇.read 14 + 1) = _
  rw [h14]

section

variable (hf : M.HasFrame) (h : (M.read 2).toNat + 5 ≤ (M.read 1).toNat)

include hf

theorem arg_ne_fixed {k : Word} (hk : k.toNat < 16) : M.read 2 ≠ k := by
  intro he
  have ha := hf.2.2.1
  rw [he] at ha
  omega

include h

theorem sp_closeFrame : M.closeFrame.sp = M.read 2 + 1 := by
  rw [closeFrame_eq hf h]
  exact read_write_self (by decide)

theorem read_closeFrame_lcl : M.closeFrame.read 1 = M.read (M.read 1 - 4) := by
  rw [closeFrame_eq hf h, read_write_of_ne (by decide)]
  exact read_write_self (by decide)

theorem read_closeFrame_arg : M.closeFrame.read 2 = M.read (M.read 1 - 3) := by
  rw [closeFrame_eq hf h, read_write_of_ne (by decide), read_write_of_ne (by decide)]
  exact read_write_self (by decide)

theorem read_closeFrame_this : M.closeFrame.read 3 = M.read (M.read 1 - 2) := by
  rw [closeFrame_eq hf h, read_write_of_ne (by decide), read_write_of_ne (by decide),
    read_write_of_ne (by decide)]
  exact read_write_self (by decide)

theorem read_closeFrame_that : M.closeFrame.read 4 = M.read (M.read 1 - 1) := by
  rw [closeFrame_eq hf h, read_write_of_ne (by decide), read_write_of_ne (by decide),
    read_write_of_ne (by decide), read_write_of_ne (by decide)]
  exact read_write_self (by decide)

theorem read_closeFrame_returnAddress : M.closeFrame.read 15 = M.read (M.read 1 - 5) := by
  rw [closeFrame_eq hf h, read_write_of_ne (by decide), read_write_of_ne (by decide),
    read_write_of_ne (by decide), read_write_of_ne (by decide), read_write_of_ne (by decide),
    read_write_of_ne (arg_ne_fixed hf (by decide)), read_write_of_ne (by decide)]
  exact read_write_self (by decide)

/-- Writes to the fixed cells do not reach above them. -/
theorem read_closeFrame_of_far {c : Word} (hc : 16 ≤ c.toNat) :
    M.closeFrame.read c = if c = M.read 2 then M.top else M.read c := by
  rw [closeFrame_eq hf h, read_write_of_fixed (by decide) hc, read_write_of_fixed (by decide) hc,
    read_write_of_fixed (by decide) hc, read_write_of_fixed (by decide) hc,
    read_write_of_fixed (by decide) hc]
  by_cases he : c = M.read 2
  · rw [if_pos he, he]
    exact read_write_self hf.2.2.2
  · rw [if_neg he, read_write_of_ne (Ne.symm he), read_write_of_fixed (by decide) hc,
      read_write_of_fixed (by decide) hc]

end

end Memory

/-! ## Headers -/

/-- The cell is one of the five words below the base of a frame. -/
def InHeader (l c : Word) : Prop := c.toNat < l.toNat ∧ l.toNat ≤ c.toNat + 5

theorem inHeader_sub {l k : Word} (hl : 21 ≤ l.toNat) (h₁ : 1 ≤ k.toNat) (h₂ : k.toNat ≤ 5) :
    InHeader l (l - k) := by
  have ht := Memory.toNat_base_sub hl h₂
  rw [InHeader]
  omega

/-- What the outermost frame was opened with: what it saves, and where its arguments begin. -/
structure Caller where
  back : Word
  lcl : Word
  arg : Word
  this : Word
  that : Word
  base : Word

/-- The frames that are open, innermost first, by their bases; `a` is the innermost `ARG`. -/
def Chain (k : Caller) (M : Memory) : List Word → Word → Prop
  | [], _ => False
  | [l], a =>
    16 ≤ a.toNat ∧ a.toNat + 5 ≤ l.toNat ∧ a = k.base ∧ M.read (l - 5) = k.back ∧
      M.read (l - 4) = k.lcl ∧ M.read (l - 3) = k.arg ∧ M.read (l - 2) = k.this ∧
      M.read (l - 1) = k.that
  | l :: l' :: fs, a =>
    l'.toNat ≤ a.toNat ∧ a.toNat + 5 ≤ l.toNat ∧ M.read (l - 5) ≠ 0 ∧ M.read (l - 4) = l' ∧
      Chain k M (l' :: fs) (M.read (l - 3))

namespace Chain

variable {k : Caller} {M M' : Memory} {l l' a : Word} {fs : List Word}

theorem add_five_le (h : Chain k M (l :: fs) a) : a.toNat + 5 ≤ l.toNat := by
  cases fs with
  | nil => exact h.2.1
  | cons l' fs => exact h.2.1

theorem sixteen_le (h : Chain k M (l :: fs) a) : 16 ≤ a.toNat := by
  induction fs generalizing l a with
  | nil => exact h.1
  | cons l' fs ih =>
    have ha := h.1
    have hr := ih h.2.2.2.2
    have hl := h.2.2.2.2.add_five_le
    omega

/-- The frames outside lie below the arguments of the innermost one. -/
theorem le_arg (h : Chain k M (l :: fs) a) : ∀ x ∈ fs, 21 ≤ x.toNat ∧ x.toNat ≤ a.toNat := by
  induction fs generalizing l a with
  | nil => simp
  | cons l' fs ih =>
    intro x hx
    have hc := h.2.2.2.2
    have h₁ := h.1
    have h₂ := hc.add_five_le
    have h₃ := hc.sixteen_le
    rcases List.mem_cons.1 hx with rfl | hx
    · omega
    · have hx := ih hc x hx
      omega

/-- The chain depends on the headers only. -/
theorem congr (h : Chain k M (l :: fs) a)
    (hm : ∀ x ∈ l :: fs, ∀ c, InHeader x c → M'.read c = M.read c) : Chain k M' (l :: fs) a := by
  induction fs generalizing l a with
  | nil =>
    have ha := h.1
    have hl := h.2.1
    have hr : ∀ i : Word, 1 ≤ i.toNat → i.toNat ≤ 5 → M'.read (l - i) = M.read (l - i) :=
      fun i h₁ h₂ => hm l (by simp) _ (inHeader_sub (by omega) h₁ h₂)
    obtain ⟨h₁, h₂, h₃, h₄, h₅, h₆, h₇, h₈⟩ := h
    refine ⟨h₁, h₂, h₃, ?_, ?_, ?_, ?_, ?_⟩
    · rw [hr 5 (by decide) (by decide), h₄]
    · rw [hr 4 (by decide) (by decide), h₅]
    · rw [hr 3 (by decide) (by decide), h₆]
    · rw [hr 2 (by decide) (by decide), h₇]
    · rw [hr 1 (by decide) (by decide), h₈]
  | cons l' fs ih =>
    have ha := h.sixteen_le
    have hl := h.2.1
    have hr : ∀ i : Word, 1 ≤ i.toNat → i.toNat ≤ 5 → M'.read (l - i) = M.read (l - i) :=
      fun i h₁ h₂ => hm l (by simp) _ (inHeader_sub (by omega) h₁ h₂)
    obtain ⟨h₁, h₂, h₃, h₄, h₅⟩ := h
    refine ⟨h₁, h₂, ?_, ?_, ?_⟩
    · rw [hr 5 (by decide) (by decide)]
      exact h₃
    · rw [hr 4 (by decide) (by decide), h₄]
    · rw [hr 3 (by decide) (by decide)]
      exact ih h₅ fun x hx => hm x (List.mem_cons_of_mem l hx)

/-- All headers lie below the base of the innermost frame, clear of the fixed cells. -/
theorem header (h : Chain k M (l :: fs) a) :
    ∀ x ∈ l :: fs, ∀ c, InHeader x c → 16 ≤ c.toNat ∧ c.toNat < l.toNat := by
  intro x hx c hc
  have h₁ := h.sixteen_le
  have h₂ := h.add_five_le
  rw [InHeader] at hc
  rcases List.mem_cons.1 hx with rfl | hx
  · omega
  · have hb := h.le_arg x hx
    omega

/-- A return takes down the innermost frame. -/
theorem hasFrame (h : Chain k M (M.read 1 :: fs) (M.read 2)) (hl : (M.read 1).toNat ≤ 32768) :
    M.HasFrame := by
  have h₁ := h.sixteen_le
  have h₂ := h.add_five_le
  refine ⟨by omega, hl, h₁, ?_⟩
  show _ ≤ 32767
  omega

/-- A call opens the outermost frame of a chain. -/
theorem open_first (hr : M.HasRoom 5) (back : Word) {args : Nat} (ha : 16 + args ≤ M.sp.toNat) :
    Chain ⟨back, M.read 1, M.read 2, M.read 3, M.read 4, M.sp - BitVec.ofNat 16 args⟩
      (M.openFrame back args) [M.sp + 5] (M.sp - BitVec.ofNat 16 args) := by
  have hs := hr.toNat_sp_sub (show args ≤ M.sp.toNat by omega)
  have hl := hr.toNat_base
  refine ⟨by omega, by omega, rfl, ?_, ?_, ?_, ?_, ?_⟩
  · exact Memory.read_openFrame_header hr back args (by decide) (by decide) rfl
  · exact Memory.read_openFrame_header hr back args (by decide) (by decide) rfl
  · exact Memory.read_openFrame_header hr back args (by decide) (by decide) rfl
  · exact Memory.read_openFrame_header hr back args (by decide) (by decide) rfl
  · exact Memory.read_openFrame_header hr back args (by decide) (by decide) rfl

/-- A further call opens a frame inside the innermost one, if its arguments lie there. -/
theorem openFrame (h : Chain k M (M.read 1 :: fs) (M.read 2)) (hr : M.HasRoom 5) {back : Word}
    (hb : back ≠ 0) {args : Nat} (ha : (M.read 1).toNat + args ≤ M.sp.toNat) :
    Chain k (M.openFrame back args) ((M.sp + 5) :: M.read 1 :: fs)
      (M.sp - BitVec.ofNat 16 args) := by
  have hs := hr.toNat_sp_sub (show args ≤ M.sp.toNat by omega)
  have hl := hr.toNat_base
  refine ⟨by omega, by omega, ?_, ?_, ?_⟩
  · rw [Memory.read_openFrame_header hr back args (v := back) (by decide) (by decide) rfl]
    exact hb
  · exact Memory.read_openFrame_header hr back args (by decide) (by decide) rfl
  · rw [Memory.read_openFrame_header hr back args (v := M.read 2) (by decide) (by decide) rfl]
    refine h.congr ?_
    intro x hx c hi
    have hb := h.header x hx c hi
    exact Memory.read_openFrame_of_lt hr back args hb.1 (by omega)

/-- A return closes the innermost frame; the one outside is then the innermost. -/
theorem closeFrame (h : Chain k M (M.read 1 :: l' :: fs) (M.read 2)) (hf : M.HasFrame) :
    M.closeFrame.read 1 = l' ∧ Chain k M.closeFrame (l' :: fs) (M.closeFrame.read 2) := by
  have h5 := h.add_five_le
  obtain ⟨h₁, -, -, h₄, hc⟩ := h
  refine ⟨(Memory.read_closeFrame_lcl hf h5).trans h₄, ?_⟩
  rw [Memory.read_closeFrame_arg hf h5]
  -- the return value goes above the base of the frame outside, so above all headers
  refine hc.congr ?_
  intro x hx c hi
  have hb := hc.header x hx c hi
  have hne : c ≠ M.read 2 := by
    intro he
    rw [he] at hb
    omega
  rw [Memory.read_closeFrame_of_far hf h5 hb.1, if_neg hne]

end Chain

/-! ## What a command keeps -/

/-- The stack stands above the base of the innermost frame, and the headers of all frames lie
below that base, clear of the fixed cells. -/
structure Sound (fs : List Word) (M : Memory) : Prop where
  lcl_le_sp : (M.read 1).toNat ≤ M.sp.toNat
  header : ∀ l ∈ fs, ∀ c, InHeader l c → 16 ≤ c.toNat ∧ c.toNat < (M.read 1).toNat

/-- The base and the arguments of the innermost frame stay, and so do all headers. -/
structure Keeps (fs : List Word) (M M' : Memory) : Prop where
  lcl : M'.read 1 = M.read 1
  arg : M'.read 2 = M.read 2
  lcl_le_sp : (M.read 1).toNat ≤ M'.sp.toNat
  header : ∀ l ∈ fs, ∀ c, InHeader l c → M'.read c = M.read c

namespace Keeps

variable {fs : List Word} {M M' M'' : Memory}

theorem refl (h : Sound fs M) : Keeps fs M M := ⟨rfl, rfl, h.lcl_le_sp, fun _ _ _ _ => rfl⟩

theorem sound (h : Keeps fs M M') (hs : Sound fs M) : Sound fs M' := by
  refine ⟨?_, ?_⟩
  · rw [h.lcl]
    exact h.lcl_le_sp
  · rw [h.lcl]
    exact hs.header

theorem trans (h : Keeps fs M M') (h' : Keeps fs M' M'') : Keeps fs M M'' := by
  refine ⟨h'.lcl.trans h.lcl, h'.arg.trans h.arg, ?_, ?_⟩
  · rw [← h.lcl]
    exact h'.lcl_le_sp
  · intro l hl c hc
    rw [h'.header l hl c hc, h.header l hl c hc]

end Keeps

namespace Sound

variable {fs : List Word} {M : Memory}

theorem keeps_push (h : Sound fs M) (hr : M.HasRoom 1) (v : Word) : Keeps fs M (M.push v) := by
  have h₁ := h.lcl_le_sp
  have h₂ : M.sp.toNat + 1 ≤ 32768 := hr.2
  refine ⟨Memory.read_push_of_lt hr (by decide) (by decide),
    Memory.read_push_of_lt hr (by decide) (by decide), ?_, ?_⟩
  · rw [Memory.sp_push, Memory.toNat_add_of_le (show M.sp.toNat + 1 ≤ 65535 by omega)]
    omega
  · intro l hl c hc
    have hb := h.header l hl c hc
    exact Memory.read_push_of_ne (by omega) (by omega)

theorem keeps_drop (h : Sound fs M) (hv : M.HasValues 1)
    (hl : (M.read 1).toNat + 1 ≤ M.sp.toNat) : Keeps fs M M.drop := by
  refine ⟨Memory.read_drop (by decide), Memory.read_drop (by decide), ?_, ?_⟩
  · rw [Memory.sp_drop, hv.toNat_sub_one]
    omega
  · intro l hl c hc
    have hb := h.header l hl c hc
    refine Memory.read_drop ?_
    intro h0
    rw [h0] at hb
    exact absurd hb.1 (by decide)

theorem keeps_write (h : Sound fs M) {c : Word} (hc : 2 < c.toNat)
    (hn : ∀ l ∈ fs, ¬ InHeader l c) (v : Word) : Keeps fs M (M.write c v) := by
  have hne : ∀ k : Word, k.toNat ≤ 2 → c ≠ k := by
    intro k hk he
    rw [he] at hc
    omega
  refine ⟨Memory.read_write_of_ne (hne 1 (by decide)), Memory.read_write_of_ne (hne 2 (by decide)),
    ?_, ?_⟩
  · rw [Memory.sp_write_of_ne (hne 0 (by decide))]
    exact h.lcl_le_sp
  · intro l hl b hb
    refine Memory.read_write_of_ne ?_
    intro he
    rw [← he] at hb
    exact hn l hl hb

/-- The fixed cells lie in no header. -/
theorem not_inHeader (h : Sound fs M) {c : Word} (hc : c.toNat < 16) :
    ∀ l ∈ fs, ¬ InHeader l c := by
  intro l hl hi
  have hb := (h.header l hl c hi).1
  omega

theorem keeps_write_fixed (h : Sound fs M) {c : Word} (hc : 2 < c.toNat) (hk : c.toNat < 16)
    (v : Word) : Keeps fs M (M.write c v) := h.keeps_write hc (h.not_inHeader hk) v

theorem keeps_pushZeros (h : Sound fs M) {n : Nat} (hr : M.HasRoom n) :
    Keeps fs M (M.pushZeros n) := by
  induction n generalizing M with
  | zero => exact Keeps.refl h
  | succ n ih =>
    have hp := h.keeps_push (hr.mono (by omega)) 0
    exact hp.trans (ih (hp.sound h) (hr.push 0))

end Sound

end HackVM
