import HackVM.Proofs.Execution
import HackVM.Proofs.Names
import HackVM.Proofs.StackMachine

/-!
# What the instruction sequences do

One lemma for each sequence says what executing it does to memory, `A` and `D`. The longer
sequences are put together from these; none of them is executed word by word again.
-/

namespace HackVM

open Assembly Instruction Sequence

namespace Rom

/-- A register's name stands for its cell. -/
theorem number_address (r : Rom) (s : Register) :
    r.number s.address = BitVec.ofNat 16 s.cell := r.value_name s

theorem number_address_le (r : Rom) (s : Register) :
    (r.number s.address).toNat ≤ maxAddress := by
  rw [number_address]
  cases s <;> decide

end Rom

namespace Core

variable {r : Rom} {M : Memory} {a d : Word}

/-! ## Single instructions -/

theorem exec_cons_load (x : Address) (code : List Instruction) :
    exec r (load x :: code) ⟨M, a, d⟩ = exec r code ⟨M, r.number x, d⟩ := rfl

/-- An instruction that stays within memory. -/
theorem exec_cons_assign (h : a.toNat ≤ maxAddress) (t : Dest) (comp : Comp)
    (code : List Instruction) :
    exec r (assign t comp :: code) ⟨M, a, d⟩ =
      exec r code ((⟨M, a, d⟩ : Core).compute (some t) comp) := by
  have hi : Machine.inRange a = true := Memory.inRange_iff.2 h
  rw [assign, exec]
  exact if_neg (by simp [hi])

theorem exec_append_of_eq {p q : List Instruction} {c c' : Core} (h : exec r p c = some c') :
    exec r (p ++ q) c = exec r q c' := by
  rw [exec_append, h, Option.bind_some]

/-! ## Loading and storing -/

theorem exec_setD (x : Address) :
    exec r (setD x) ⟨M, a, d⟩ = some ⟨M, r.number x, r.number x⟩ := rfl

theorem exec_fetchD {x : Address} (h : (r.number x).toNat ≤ maxAddress) :
    exec r (fetchD x) ⟨M, a, d⟩ = some ⟨M, r.number x, M.read (r.number x)⟩ := by
  rw [fetchD, exec_cons_load, exec_cons_assign h]
  rfl

theorem exec_followA {x : Address} (h : (r.number x).toNat ≤ maxAddress) :
    exec r (followA x) ⟨M, a, d⟩ = some ⟨M, M.read (r.number x), d⟩ := by
  rw [followA, exec_cons_load, exec_cons_assign h]
  rfl

theorem exec_followD {x : Address} (h : (r.number x).toNat ≤ maxAddress)
    (h' : (M.read (r.number x)).toNat ≤ maxAddress) :
    exec r (followD x) ⟨M, a, d⟩ =
      some ⟨M, M.read (r.number x), M.read (M.read (r.number x))⟩ := by
  rw [followD, exec_append_of_eq (exec_followA h), exec_cons_assign h']
  rfl

theorem exec_storeD {x : Address} (h : (r.number x).toNat ≤ maxAddress) :
    exec r (storeD x) ⟨M, a, d⟩ = some ⟨M.write (r.number x) d, r.number x, d⟩ := by
  rw [storeD, exec_cons_load, exec_cons_assign h]
  rfl

theorem exec_storeDThrough {x : Address} (h : (r.number x).toNat ≤ maxAddress)
    (h' : (M.read (r.number x)).toNat ≤ maxAddress) :
    exec r (storeDThrough x) ⟨M, a, d⟩ =
      some ⟨M.write (M.read (r.number x)) d, M.read (r.number x), d⟩ := by
  rw [storeDThrough, exec_append_of_eq (exec_followA h), exec_cons_assign h']
  rfl

theorem exec_put {v x : Address} (h : (r.number x).toNat ≤ maxAddress) :
    exec r (put v x) ⟨M, a, d⟩ =
      some ⟨M.write (r.number x) (r.number v), r.number x, r.number v⟩ := by
  rw [put, exec_append_of_eq (exec_setD v), exec_storeD h]

theorem exec_move {x y : Address} (hx : (r.number x).toNat ≤ maxAddress)
    (hy : (r.number y).toNat ≤ maxAddress) :
    exec r (move x y) ⟨M, a, d⟩ =
      some ⟨M.write (r.number y) (M.read (r.number x)), r.number y, M.read (r.number x)⟩ := by
  rw [move, exec_append_of_eq (exec_fetchD hx), exec_storeD hy]

theorem exec_increment {x : Address} (h : (r.number x).toNat ≤ maxAddress) :
    exec r (increment x) ⟨M, a, d⟩ =
      some ⟨M.write (r.number x) (M.read (r.number x) + 1), r.number x, d⟩ := by
  rw [increment, exec_cons_load, exec_cons_assign h]
  rfl

theorem exec_decrement {x : Address} (h : (r.number x).toNat ≤ maxAddress) :
    exec r (decrement x) ⟨M, a, d⟩ =
      some ⟨M.write (r.number x) (M.read (r.number x) - 1), r.number x, d⟩ := by
  rw [decrement, exec_cons_load, exec_cons_assign h]
  rfl

/-! ## The stack -/

theorem number_sp : r.number Register.sp = 0 := r.number_address .sp

theorem read_number_sp_drop (M : Memory) : M.drop.read (r.number Register.sp) = M.sp - 1 := by
  rw [number_sp]
  exact M.sp_drop

/-- Decrementing the stack pointer takes the topmost value off. -/
theorem exec_decrement_sp :
    exec r (decrement Register.sp) ⟨M, a, d⟩ = some ⟨M.drop, r.number Register.sp, d⟩ := by
  rw [exec_decrement (r.number_address_le _), number_sp]
  rfl

theorem exec_pushD (h : M.HasRoom 1) :
    exec r pushD ⟨M, a, d⟩ = some ⟨M.push d, 0, d⟩ := by
  have hs : (M.read (r.number Register.sp)).toNat ≤ maxAddress := by
    rw [number_sp]
    exact Nat.le_of_lt_succ (Nat.lt_of_succ_le h.2)
  have h0 : M.sp ≠ 0 := h.sp_ne (by decide)
  rw [pushD, exec_append_of_eq (exec_storeDThrough (r.number_address_le _) hs),
    exec_increment (r.number_address_le _), number_sp]
  rw [show (M.write (M.read 0) d).read 0 = M.sp from Memory.sp_write_of_ne h0]
  rfl

theorem exec_popD (h : M.HasValues 1) :
    exec r popD ⟨M, a, d⟩ = some ⟨M.drop, M.sp - 1, M.top⟩ := by
  have hd := read_number_sp_drop (r := r) M
  rw [popD, exec_append_of_eq exec_decrement_sp,
    exec_followD (r.number_address_le _) (by rw [hd]; exact h.toNat_sub_one_le), hd,
    h.read_drop_sub_one]

theorem exec_popA (h : M.HasValues 1) :
    exec r popA ⟨M, a, d⟩ = some ⟨M.drop, M.top, d⟩ := by
  rw [popA, List.append_assoc, exec_append_of_eq exec_decrement_sp,
    exec_append_of_eq (exec_followA (r.number_address_le _)), read_number_sp_drop,
    exec_cons_assign h.toNat_sub_one_le, ← h.read_drop_sub_one]
  rfl

theorem exec_pushValue (h : M.HasRoom 1) (x : Address) :
    exec r (pushValue x) ⟨M, a, d⟩ = some ⟨M.push (r.number x), 0, r.number x⟩ := by
  rw [pushValue, exec_append_of_eq (exec_setD x), exec_pushD h]

theorem exec_pushCell (h : M.HasRoom 1) {x : Address} (hx : (r.number x).toNat ≤ maxAddress) :
    exec r (pushCell x) ⟨M, a, d⟩ =
      some ⟨M.push (M.read (r.number x)), 0, M.read (r.number x)⟩ := by
  rw [pushCell, exec_append_of_eq (exec_fetchD hx), exec_pushD h]

theorem exec_popCell (h : M.HasValues 1) {x : Address} (hx : (r.number x).toNat ≤ maxAddress) :
    exec r (popCell x) ⟨M, a, d⟩ =
      some ⟨M.drop.write (r.number x) M.top, r.number x, M.top⟩ := by
  rw [popCell, exec_append_of_eq (exec_popD h), exec_storeD hx]

/-! ## Elements of frame segments -/

theorem number_element : r.number Register.element = 13 := r.number_address .r13

theorem exec_locate (base : Register) (i : Nat) :
    exec r (locate base i) ⟨M, a, d⟩ =
      some ⟨M.write 13 (M.read (BitVec.ofNat 16 base.cell) + BitVec.ofNat 16 i), 13,
        M.read (BitVec.ofNat 16 base.cell) + BitVec.ofNat 16 i⟩ := by
  rw [locate, List.append_assoc, List.append_assoc,
    exec_append_of_eq (exec_fetchD (r.number_address_le base)), r.number_address base]
  show exec r (storeD Register.element) ⟨M, BitVec.ofNat 16 i,
    M.read (BitVec.ofNat 16 base.cell) + BitVec.ofNat 16 i⟩ = _
  rw [exec_storeD (r.number_address_le _), number_element]

theorem exec_pushElement (h : M.HasRoom 1) {base : Register} {i : Nat} {e : Word}
    (he : M.read (BitVec.ofNat 16 base.cell) + BitVec.ofNat 16 i = e)
    (hr : e.toNat ≤ maxAddress) (hn : e ≠ 13) :
    exec r (pushElement base i) ⟨M, a, d⟩ =
      some ⟨(M.write 13 e).push (M.read e), 0, M.read e⟩ := by
  have h13 : (M.write 13 e).read (r.number Register.element) = e := by
    rw [number_element]
    exact Memory.read_write_self (by decide)
  rw [pushElement, List.append_assoc, exec_append_of_eq (exec_locate base i), he,
    exec_append_of_eq (exec_followD (r.number_address_le _) (by rw [h13]; exact hr)), h13,
    Memory.read_write_of_ne hn.symm, exec_pushD (h.write (by decide) _)]

theorem exec_popElement (h : M.HasValues 1) {base : Register} {i : Nat} {e : Word}
    (he : M.read (BitVec.ofNat 16 base.cell) + BitVec.ofNat 16 i = e)
    (hr : e.toNat ≤ maxAddress) :
    exec r (popElement base i) ⟨M, a, d⟩ =
      some ⟨(M.write 13 e).drop.write e M.top, e, M.top⟩ := by
  have ht : (M.write 13 e).top = M.top := h.top_write (by decide) (by decide) e
  have h13 : (M.write 13 e).drop.read (r.number Register.element) = e := by
    rw [number_element, Memory.read_drop (by decide)]
    exact Memory.read_write_self (by decide)
  rw [popElement, List.append_assoc, exec_append_of_eq (exec_locate base i), he,
    exec_append_of_eq (exec_popD (h.write (by decide) _)), ht,
    exec_storeDThrough (r.number_address_le _) (by rw [h13]; exact hr), h13]

/-! ## Operands of push and pop -/

theorem of_pointer (r : Rom) (unit : String) (M : Memory) (i : Nat) :
    Operand.of r.value unit M i .pointer =
      .cell (r.number (Expansion.pointerRegister i).address) := by
  rw [r.number_address, Operand.of, Expansion.pointerRegister]
  split
  · rfl
  · rfl

/-- A push takes its value from the operand that its segment and index name. -/
theorem exec_push {unit : String} {s : Segment} {i : Nat} (h : M.HasRoom 1)
    {M' : Memory} (hp : (Operand.of r.value unit M i s).push M = some M') :
    ∃ a' d', exec r (Expansion.push unit s i) ⟨M, a, d⟩ = some ⟨M', a', d'⟩ := by
  have element : ∀ (base : Register) (e : Word),
      M.read (BitVec.ofNat 16 base.cell) + BitVec.ofNat 16 i = e →
      (Operand.element e).push M = some M' →
      ∃ a' d', exec r (pushElement base i) ⟨M, a, d⟩ = some ⟨M', a', d'⟩ := by
    intro base e he hp
    rw [Operand.push] at hp
    split at hp
    · rename_i hr
      cases hp
      exact ⟨_, _, exec_pushElement h he hr.1 hr.2⟩
    · cases hp
  have cell : ∀ x : Address, (Operand.cell (r.number x)).push M = some M' →
      ∃ a' d', exec r (pushCell x) ⟨M, a, d⟩ = some ⟨M', a', d'⟩ := by
    intro x hp
    rw [Operand.push] at hp
    split at hp
    · rename_i hr
      cases hp
      exact ⟨_, _, exec_pushCell h hr⟩
    · cases hp
  cases s with
  | constant =>
    cases hp
    exact ⟨_, _, exec_pushValue h _⟩
  | locals => exact element .lcl _ rfl hp
  | arguments => exact element .arg _ rfl hp
  | this => exact element .this _ rfl hp
  | that => exact element .that _ rfl hp
  | temp => exact cell (.value (5 + i)) hp
  | pointer =>
    rw [of_pointer] at hp
    exact cell _ hp
  | static => exact cell (.symbol (staticSymbol unit i)) hp

theorem exec_pop {unit : String} {s : Segment} {i : Nat} {code : List Instruction}
    (hc : Expansion.pop unit s i = .ok code)
    (h : M.HasValues 1) {M' : Memory} (hp : (Operand.of r.value unit M i s).pop M = some M') :
    ∃ a' d', exec r code ⟨M, a, d⟩ = some ⟨M', a', d'⟩ := by
  have element : ∀ (base : Register) (e : Word),
      M.read (BitVec.ofNat 16 base.cell) + BitVec.ofNat 16 i = e →
      (Operand.element e).pop M = some M' →
      ∃ a' d', exec r (popElement base i) ⟨M, a, d⟩ = some ⟨M', a', d'⟩ := by
    intro base e he hp
    rw [Operand.pop] at hp
    split at hp
    · rename_i hr
      cases hp
      exact ⟨_, _, exec_popElement h he hr⟩
    · cases hp
  have cell : ∀ x : Address, (Operand.cell (r.number x)).pop M = some M' →
      ∃ a' d', exec r (popCell x) ⟨M, a, d⟩ = some ⟨M', a', d'⟩ := by
    intro x hp
    rw [Operand.pop] at hp
    split at hp
    · rename_i hr
      cases hp
      exact ⟨_, _, exec_popCell h hr⟩
    · cases hp
  cases s with
  | constant => cases hc
  | locals =>
    cases hc
    exact element .lcl _ rfl hp
  | arguments =>
    cases hc
    exact element .arg _ rfl hp
  | this =>
    cases hc
    exact element .this _ rfl hp
  | that =>
    cases hc
    exact element .that _ rfl hp
  | temp =>
    cases hc
    exact cell (.value (5 + i)) hp
  | pointer =>
    cases hc
    rw [of_pointer] at hp
    exact cell _ hp
  | static =>
    cases hc
    exact cell (.symbol (staticSymbol unit i)) hp

/-! ## Arithmetic -/

/-- The operands of a binary operation in `A` and `D`. -/
theorem exec_popD_popA (h : M.HasValues 2) :
    exec r (popD ++ popA) ⟨M, a, d⟩ = some ⟨M.drop.drop, M.drop.top, M.top⟩ := by
  rw [exec_append_of_eq (exec_popD (h.mono (by decide))), exec_popA h.drop]

theorem exec_binary (h : M.HasValues 2) {comp : Comp} (hf : comp.readsMemory = false) :
    exec r (Expansion.binary (assign .d comp)) ⟨M, a, d⟩ =
      some ⟨M.drop.drop.push (comp.eval M.top M.drop.top), 0, comp.eval M.top M.drop.top⟩ := by
  have hr : M.drop.drop.HasRoom 1 := h.drop.hasRoom_drop
  have hi : (⟨M.drop.drop, M.drop.top, M.top⟩ : Core).input comp = M.drop.top := by
    rw [input]
    split
    · rename_i hm
      rw [Comp.readsMemory, hm] at hf
      cases hf
    · rfl
  have ha : exec r [assign .d comp] ⟨M.drop.drop, M.drop.top, M.top⟩ =
      some ⟨M.drop.drop, M.drop.top, comp.eval M.top M.drop.top⟩ := by
    show (if ((comp.readsMemory || false) && _) = true then none else some _) = _
    rw [hf]
    show some ((⟨M.drop.drop, M.drop.top, M.top⟩ : Core).compute (some .d) comp) = _
    rw [compute, hi]
    rfl
  rw [Expansion.binary, List.append_assoc, exec_append_of_eq (exec_popD_popA h),
    exec_append_of_eq ha, exec_pushD hr]

theorem exec_unary (h : M.HasValues 1) {comp : Comp} (hf : comp.input? = none) :
    exec r (Expansion.unary (assign .d comp)) ⟨M, a, d⟩ =
      some ⟨M.drop.push (comp.eval M.top (M.sp - 1)), 0, comp.eval M.top (M.sp - 1)⟩ := by
  have ha : exec r [assign .d comp] ⟨M.drop, M.sp - 1, M.top⟩ =
      some ⟨M.drop, M.sp - 1, comp.eval M.top (M.sp - 1)⟩ := by
    rw [exec_cons_assign h.toNat_sub_one_le, compute, input, hf]
    rfl
  rw [Expansion.unary, List.append_assoc, exec_append_of_eq (exec_popD h), exec_append_of_eq ha,
    exec_pushD h.hasRoom_drop]

/-! ## Locals -/

theorem exec_pushZero (h : M.HasRoom 1) :
    exec r (pushValue (0 : Nat)) ⟨M, a, d⟩ = some ⟨M.push 0, 0, 0⟩ := exec_pushValue h _

theorem exec_zeros {k : Nat} (h : M.HasRoom k) :
    ∃ a' d', exec r (List.replicate k (pushValue (0 : Nat))).flatten ⟨M, a, d⟩ =
      some ⟨M.pushZeros k, a', d'⟩ := by
  induction k generalizing M a d with
  | zero => exact ⟨a, d, rfl⟩
  | succ k ih =>
    obtain ⟨a', d', hx⟩ := ih (a := 0) (d := 0) (h.push 0)
    refine ⟨a', d', ?_⟩
    rw [List.replicate_succ, List.flatten_cons,
      exec_append_of_eq (exec_pushZero (h.mono (by omega))),
      hx]
    rfl

/-! ## Frames -/

/-- The pointers of the caller go on the stack one after the other. -/
theorem exec_pushRegister (h : M.HasRoom 1) (s : Register) :
    exec r (pushCell s.address) ⟨M, a, d⟩ =
      some ⟨M.push (M.read (BitVec.ofNat 16 s.cell)), 0, M.read (BitVec.ofNat 16 s.cell)⟩ := by
  rw [exec_pushCell h (r.number_address_le s), r.number_address]

/-- `[ARG] := SP - 5 - args`. -/
theorem exec_setArg (args : Nat) :
    exec r (fetchD Register.sp ++ setA MemoryMap.frameHeader ++ [subA] ++ setA args ++ [subA] ++
        storeD Register.arg) ⟨M, a, d⟩ =
      some ⟨M.write 2 (M.sp - 5 - BitVec.ofNat 16 args), 2,
        M.sp - 5 - BitVec.ofNat 16 args⟩ := by
  have ha : r.number Register.arg = 2 := r.number_address .arg
  simp only [List.append_assoc]
  rw [exec_append_of_eq (exec_fetchD (r.number_address_le _)), number_sp]
  show exec r (storeD Register.arg)
    ⟨M, BitVec.ofNat 16 args, M.sp - 5 - BitVec.ofNat 16 args⟩ = _
  rw [exec_storeD (r.number_address_le _), ha]

theorem exec_openFrame (h : M.HasRoom 5) (n : Numbering) (name : String) (args : Nat) :
    ∃ a' d', exec r (Expansion.openFrame n name args) ⟨M, a, d⟩ =
      some ⟨M.openFrame (r.value (n.returnLabel name)) args, a', d'⟩ := by
  let M₁ := M.push (r.value (n.returnLabel name))
  let M₂ := M₁.push (M₁.read 1)
  let M₃ := M₂.push (M₂.read 2)
  let M₄ := M₃.push (M₃.read 3)
  let M₅ := M₄.push (M₄.read 4)
  have h₁ : M₁.HasRoom 4 := h.push _
  have h₂ : M₂.HasRoom 3 := h₁.push _
  have h₃ : M₃.HasRoom 2 := h₂.push _
  have h₄ : M₄.HasRoom 1 := h₃.push _
  have hs : exec r (Register.saved.flatMap fun s => pushCell s.address)
      ⟨M₁, 0, r.value (n.returnLabel name)⟩ = some ⟨M₅, 0, M₄.read 4⟩ := by
    have e₂ : exec r (pushCell Register.lcl.address) ⟨M₁, 0, r.value (n.returnLabel name)⟩ =
        some ⟨M₂, 0, M₁.read 1⟩ := exec_pushRegister (h₁.mono (by decide)) .lcl
    have e₃ : exec r (pushCell Register.arg.address) ⟨M₂, 0, M₁.read 1⟩ =
        some ⟨M₃, 0, M₂.read 2⟩ := exec_pushRegister (h₂.mono (by decide)) .arg
    have e₄ : exec r (pushCell Register.this.address) ⟨M₃, 0, M₂.read 2⟩ =
        some ⟨M₄, 0, M₃.read 3⟩ := exec_pushRegister (h₃.mono (by decide)) .this
    have e₅ : exec r (pushCell Register.that.address) ⟨M₄, 0, M₃.read 3⟩ =
        some ⟨M₅, 0, M₄.read 4⟩ := exec_pushRegister h₄ .that
    simp only [Register.saved, List.flatMap_cons, List.flatMap_nil, List.append_nil]
    rw [exec_append_of_eq e₂, exec_append_of_eq e₃, exec_append_of_eq e₄, e₅]
  let M₆ := M₅.write 2 (M₅.sp - 5 - BitVec.ofNat 16 args)
  have hm : ∀ a d, exec r (move Register.sp Register.lcl) ⟨M₆, a, d⟩ =
      some ⟨M₆.write 1 M₆.sp, 1, M₆.sp⟩ := by
    intro a d
    have hl : r.number Register.lcl = 1 := r.number_address .lcl
    rw [exec_move (r.number_address_le _) (r.number_address_le _), number_sp, hl]
    rfl
  refine ⟨1, M₆.sp, ?_⟩
  rw [Expansion.openFrame, List.append_assoc, List.append_assoc,
    exec_append_of_eq (exec_pushValue (h.mono (by decide)) _)]
  show exec r _ ⟨M₁, 0, r.value (n.returnLabel name)⟩ = _
  rw [exec_append_of_eq hs, exec_append_of_eq (exec_setArg args), hm]
  rfl

/-- A pop into a register, while the stack pointer is `z` and the rest of memory is `A`. -/
theorem exec_popRegister {A : Memory} {z : Word} {s : Register}
    (hs : BitVec.ofNat 16 s.cell ≠ (0 : Word))
    (h₁ : 17 ≤ z.toNat) (h₂ : z.toNat ≤ 32768) :
    exec r (popCell s.address) ⟨A.write 0 z, a, d⟩ =
      some ⟨(A.write (BitVec.ofNat 16 s.cell) (A.read (z - 1))).write 0 (z - 1),
        BitVec.ofNat 16 s.cell, A.read (z - 1)⟩ := by
  have hz : (A.write 0 z).sp = z := Memory.read_write_self (by decide)
  have hv : (A.write 0 z).HasValues 1 := by
    rw [Memory.HasValues, hz]
    exact ⟨h₁, h₂⟩
  have hn : (0 : Word) ≠ z - 1 := by
    have hne := hv.sub_one_ne (c := 0) (by decide)
    rw [hz] at hne
    exact hne.symm
  have ht : (A.write 0 z).top = A.read (z - 1) := by
    rw [Memory.top, hz, Memory.read_write_of_ne hn]
  have hd : (A.write 0 z).drop = A.write 0 (z - 1) := by
    rw [Memory.drop, hz, Memory.write_write_self]
  rw [exec_popCell hv (r.number_address_le s), ht, hd, r.number_address,
    Memory.write_comm (Ne.symm hs)]

/-- The address of the word `k` below `z`. -/
theorem toNat_sub_of_le {z k : Word} (h : k.toNat ≤ z.toNat) :
    (z - k).toNat = z.toNat - k.toNat := by
  rw [BitVec.toNat_sub]
  omega

theorem sub_sub_one (z k : Word) : z - k - 1 = z - (k + 1) := by bv_omega

/-- The saved pointers come back from the four cells below `z`. -/
theorem exec_popRegisters {A : Memory} {z : Word} (h₁ : 21 ≤ z.toNat) (h₂ : z.toNat ≤ 32768) :
    let A₁ := A.write 4 (A.read (z - 1))
    let A₂ := A₁.write 3 (A₁.read (z - 2))
    let A₃ := A₂.write 2 (A₂.read (z - 3))
    exec r (Register.saved.reverse.flatMap fun s => popCell s.address) ⟨A.write 0 z, a, d⟩ =
      some ⟨(A₃.write 1 (A₃.read (z - 4))).write 0 (z - 4), 1, A₃.read (z - 4)⟩ := by
  intro A₁ A₂ A₃
  have hz : ∀ k : Word, k.toNat ≤ 4 → 17 ≤ (z - k).toNat ∧ (z - k).toNat ≤ 32768 := by
    intro k hk
    rw [toNat_sub_of_le (by omega)]
    omega
  have h17 : 17 ≤ z.toNat := by omega
  have e₁ : exec r (popCell Register.that.address) ⟨A.write 0 z, a, d⟩ =
      some ⟨A₁.write 0 (z - 1), 4, A.read (z - 1)⟩ :=
    exec_popRegister (by decide) h17 h₂
  have e₂ : exec r (popCell Register.this.address) ⟨A₁.write 0 (z - 1), 4, A.read (z - 1)⟩ =
      some ⟨A₂.write 0 (z - 2), 3, A₁.read (z - 2)⟩ := by
    have e := exec_popRegister (r := r) (a := 4) (d := A.read (z - 1)) (A := A₁) (s := .this)
      (by decide) (hz 1 (by decide)).1 (hz 1 (by decide)).2
    rwa [sub_sub_one z 1] at e
  have e₃ : exec r (popCell Register.arg.address) ⟨A₂.write 0 (z - 2), 3, A₁.read (z - 2)⟩ =
      some ⟨A₃.write 0 (z - 3), 2, A₂.read (z - 3)⟩ := by
    have e := exec_popRegister (r := r) (a := 3) (d := A₁.read (z - 2)) (A := A₂) (s := .arg)
      (by decide) (hz 2 (by decide)).1 (hz 2 (by decide)).2
    rwa [sub_sub_one z 2] at e
  have e₄ := exec_popRegister (r := r) (a := 2) (d := A₂.read (z - 3)) (A := A₃) (s := .lcl)
    (by decide) (hz 3 (by decide)).1 (hz 3 (by decide)).2
  rw [sub_sub_one z 3] at e₄
  show exec r (popCell Register.that.address ++ (popCell Register.this.address ++
    (popCell Register.arg.address ++ (popCell Register.lcl.address ++ [])))) _ = _
  rw [exec_append_of_eq e₁, exec_append_of_eq e₂, exec_append_of_eq e₃, List.append_nil]
  exact e₄

/-- The return address goes to cell 15, by way of its own address. -/
theorem exec_takeReturnAddress (h₁ : 21 ≤ (M.read 1).toNat) (h₂ : (M.read 1).toNat ≤ 32768) :
    exec r (fetchD Register.lcl ++ setA MemoryMap.frameHeader ++ [subA] ++
        storeD Register.returnAddress ++ followD Register.returnAddress ++
        storeD Register.returnAddress) ⟨M, a, d⟩ =
      some ⟨M.write 15 (M.read (M.read 1 - 5)), 15, M.read (M.read 1 - 5)⟩ := by
  have hl : r.number Register.lcl = 1 := r.number_address .lcl
  have hr : r.number Register.returnAddress = 15 := r.number_address .r15
  have hs : (M.read 1 - 5).toNat = (M.read 1).toNat - 5 :=
    toNat_sub_of_le (show 5 ≤ (M.read 1).toNat by omega)
  have hx : (M.read 1 - 5).toNat ≤ maxAddress := by
    show _ ≤ 32767
    omega
  have hn : (15 : Word) ≠ M.read 1 - 5 := by
    intro h
    rw [← h] at hs
    have h15 : (15 : Word).toNat = 15 := rfl
    omega
  have e₁ : exec r (fetchD Register.lcl ++ setA MemoryMap.frameHeader ++ [subA]) ⟨M, a, d⟩ =
      some ⟨M, 5, M.read 1 - 5⟩ := by
    rw [List.append_assoc, exec_append_of_eq (exec_fetchD (r.number_address_le _)), hl]
    rfl
  have e₂ := exec_append_of_eq (q := storeD Register.returnAddress) e₁
  rw [exec_storeD (r.number_address_le _), hr] at e₂
  have h15 : (M.write 15 (M.read 1 - 5)).read (r.number Register.returnAddress) =
      M.read 1 - 5 := by
    rw [hr]
    exact Memory.read_write_self (by decide)
  have e₃ := exec_append_of_eq (q := followD Register.returnAddress) e₂
  rw [exec_followD (r.number_address_le _) (by rw [h15]; exact hx), h15,
    Memory.read_write_of_ne hn] at e₃
  rw [exec_append_of_eq e₃, exec_storeD (r.number_address_le _), hr, Memory.write_write_self]

/-- `ARG` goes to cell 14 and the value on top of the stack to where it points. -/
theorem exec_placeValue (h : M.HasValues 1) (h₁ : 16 ≤ (M.read 2).toNat)
    (h₂ : (M.read 2).toNat ≤ maxAddress) :
    exec r (move Register.arg Register.frameBase ++ popD ++ storeDThrough Register.frameBase)
        ⟨M, a, d⟩ =
      some ⟨((M.write 14 (M.read 2)).write (M.read 2) M.top).write 0 (M.sp - 1), M.read 2,
        M.top⟩ := by
  have ha : r.number Register.arg = 2 := r.number_address .arg
  have hb : r.number Register.frameBase = 14 := r.number_address .r14
  have hs : (M.write 14 (M.read 2)).sp = M.sp := Memory.sp_write_of_ne (by decide)
  have ht : (M.write 14 (M.read 2)).top = M.top := h.top_write (by decide) (by decide) _
  have h14 : (M.write 14 (M.read 2)).drop.read (r.number Register.frameBase) = M.read 2 := by
    rw [hb, Memory.read_drop (by decide)]
    exact Memory.read_write_self (by decide)
  have h0 : (0 : Word) ≠ M.read 2 := by
    intro h0
    rw [← h0] at h₁
    exact absurd h₁ (by decide)
  rw [List.append_assoc,
    exec_append_of_eq (exec_move (r.number_address_le _) (r.number_address_le _)),
    ha, hb, exec_append_of_eq (exec_popD (h.write (by decide) _)), ht, hs,
    exec_storeDThrough (r.number_address_le _) (by rw [h14]; exact h₂), h14, Memory.drop, hs,
    Memory.write_comm h0]

/-- The stack pointer goes to the cell behind the one that cell 14 points to. -/
theorem exec_restoreStackPointer (A : Memory) (z : Word) :
    exec r (move Register.frameBase Register.sp ++ increment Register.sp) ⟨A.write 0 z, a, d⟩ =
      some ⟨A.write 0 (A.read 14 + 1), 0, A.read 14⟩ := by
  have hb : r.number Register.frameBase = 14 := r.number_address .r14
  have h0 : (A.write 0 (A.read 14)).read 0 = A.read 14 := Memory.read_write_self (by decide)
  rw [exec_append_of_eq (exec_move (r.number_address_le _) (r.number_address_le _)), number_sp,
    hb, Memory.read_write_of_ne (by decide), Memory.write_write_self,
    exec_increment (r.number_address_le _), number_sp, h0, Memory.write_write_self]

theorem exec_closeFrame (hv : M.HasValues 1) (hf : M.HasFrame) :
    ∃ a' d', exec r Expansion.closeFrame ⟨M, a, d⟩ = some ⟨M.closeFrame, a', d'⟩ := by
  let frame := M.read 1
  let M₁ := M.write 15 (M.read (frame - 5))
  let M₂ := M₁.write 14 (M₁.read 2)
  let M₃ := M₂.write (M₂.read 14) M.top
  let M₄ := M₃.write 4 (M₃.read (frame - 1))
  let M₅ := M₄.write 3 (M₄.read (frame - 2))
  let M₆ := M₅.write 2 (M₅.read (frame - 3))
  let M₇ := M₆.write 1 (M₆.read (frame - 4))
  have hf₁ : 21 ≤ frame.toNat := hf.1
  have hf₂ : frame.toNat ≤ 32768 := hf.2.1
  have hb₁ : 16 ≤ (M.read 2).toNat := hf.2.2.1
  have h15 : M₁.read 2 = M.read 2 := Memory.read_write_of_ne (by decide)
  have h14 : M₂.read 14 = M₁.read 2 := Memory.read_write_self (by decide)
  have ht : M₁.top = M.top := hv.top_write (by decide) (by decide) _
  have h1 : M₃.read 1 = frame := by
    have hn : M₂.read 14 ≠ 1 := by
      intro h
      rw [h14, h15] at h
      rw [h] at hb₁
      exact absurd hb₁ (by decide)
    rw [Memory.read_write_of_ne hn, Memory.read_write_of_ne (by decide),
      Memory.read_write_of_ne (by decide)]
  have hm : M₃ = (M₁.write 14 (M₁.read 2)).write (M₁.read 2) M₁.top := by
    show M₂.write (M₂.read 14) M.top = _
    rw [h14, ht]
  have e₁ : exec r (fetchD Register.lcl ++ setA MemoryMap.frameHeader ++ [subA] ++
      storeD Register.returnAddress ++ followD Register.returnAddress ++
      storeD Register.returnAddress) ⟨M, a, d⟩ = some ⟨M₁, 15, M.read (frame - 5)⟩ :=
    exec_takeReturnAddress hf₁ hf₂
  have e₂ : exec r (move Register.arg Register.frameBase ++ popD ++
      storeDThrough Register.frameBase) ⟨M₁, 15, M.read (frame - 5)⟩ =
      some ⟨M₃.write 0 (M₁.sp - 1), M₁.read 2, M₁.top⟩ := by
    rw [hm]
    exact exec_placeValue (hv.write (by decide) _) (by rw [h15]; exact hb₁)
      (by rw [h15]; exact hf.2.2.2)
  have e₃ : exec r (move Register.lcl Register.sp) ⟨M₃.write 0 (M₁.sp - 1), M₁.read 2, M₁.top⟩ =
      some ⟨M₃.write 0 frame, 0, frame⟩ := by
    have hl : r.number Register.lcl = 1 := r.number_address .lcl
    rw [exec_move (r.number_address_le _) (r.number_address_le _), number_sp, hl,
      Memory.read_write_of_ne (by decide), h1, Memory.write_write_self]
  have e₄ := exec_popRegisters (r := r) (a := 0) (d := frame) (A := M₃) hf₁ hf₂
  refine ⟨0, M₇.read 14, ?_⟩
  rw [Expansion.closeFrame, List.append_assoc, List.append_assoc, List.append_assoc,
    exec_append_of_eq e₁, exec_append_of_eq e₂, exec_append_of_eq e₃]
  exact (exec_append_of_eq e₄).trans (exec_restoreStackPointer M₇ _)

end Core

end HackVM
