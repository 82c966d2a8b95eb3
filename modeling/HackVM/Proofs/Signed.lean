import HackVM.Proofs.Refinement

/-!
# Comparisons of signed words

A comparison subtracts the operand on top of the stack from the one below it and answers by the
sign of the difference, a word. For equality that is right for all words. For the other two it is
right as long as the difference of the signed integers is one of a word; where it is not, the
difference of the words has the other sign, and the answer is the opposite one.
-/

namespace HackVM

/-- The commands that compare. -/
inductive Comparison
  | eq | gt | lt
deriving DecidableEq, Repr

namespace Comparison

def op : Comparison → ArithmeticOp
  | eq => .eq
  | gt => .gt
  | lt => .lt

/-- What is asked of the operand below and the one on top. -/
def holds (below top : Int) : Comparison → Bool
  | eq => below == top
  | gt => top < below
  | lt => below < top

/-- Whether the sign of the difference of two words settles the comparison: equality always, the
other two unless the difference of the signed integers overflows. -/
def SettledBySign (c : Comparison) (below top : Word) : Prop :=
  c = eq ∨ below.ssubOverflow top = false

instance (c : Comparison) (below top : Word) : Decidable (c.SettledBySign below top) :=
  inferInstanceAs (Decidable (_ ∨ _))

/-! ## The sign of a difference -/

/-- Where the difference of the integers overflows, it is a full turn away from the difference of
the words. -/
theorem toInt_sub_of_ssubOverflow {x y : Word} (h : x.ssubOverflow y = true) :
    (32768 ≤ x.toInt - y.toInt ∧ (x - y).toInt = x.toInt - y.toInt - 65536) ∨
      (x.toInt - y.toInt < -32768 ∧ (x - y).toInt = x.toInt - y.toInt + 65536) := by
  have hx := x.toInt_lt
  have hx' := x.le_toInt
  have hy := y.toInt_lt
  have hy' := y.le_toInt
  have ho : 32768 ≤ x.toInt - y.toInt ∨ x.toInt - y.toInt < -32768 := by
    simpa [BitVec.ssubOverflow] using h
  -- the difference is within two turns, so one turn brings it back to the words
  rw [BitVec.toInt_sub, Int.bmod_def]
  omega

theorem sub_beq_zero (x y : Word) : (x - y == 0) = (x.toInt == y.toInt) := by
  rw [Bool.eq_iff_iff, beq_iff_eq, beq_iff_eq, BitVec.toInt_inj]
  constructor
  · bv_omega
  · bv_omega

theorem result_of_settledBySign {c : Comparison} {x y : Word} (h : c.SettledBySign x y) :
    c.op.result x y = truth (c.holds x.toInt y.toInt) := by
  have hd : c ≠ eq → (x - y).toInt = x.toInt - y.toInt := fun hc =>
    BitVec.toInt_sub_of_not_ssubOverflow (by simp [h.resolve_left hc])
  cases c with
  | eq => exact congrArg truth (sub_beq_zero x y)
  | gt =>
    refine congrArg truth (decide_eq_decide.2 ?_)
    rw [hd (by decide)]
    omega
  | lt =>
    refine congrArg truth (decide_eq_decide.2 ?_)
    rw [hd (by decide)]
    omega

theorem result_of_not_settledBySign {c : Comparison} {x y : Word} (h : ¬ c.SettledBySign x y) :
    c.op.result x y = truth (!c.holds x.toInt y.toInt) := by
  rw [SettledBySign, not_or, Bool.not_eq_false] at h
  have hd := toInt_sub_of_ssubOverflow h.2
  have hx := x.toInt_lt
  have hx' := x.le_toInt
  have hy := y.toInt_lt
  have hy' := y.le_toInt
  cases c with
  | eq => exact absurd rfl h.1
  | gt =>
    refine congrArg truth ?_
    show decide (0 < (x - y).toInt) = !decide (y.toInt < x.toInt)
    rw [← decide_not, decide_eq_decide]
    omega
  | lt =>
    refine congrArg truth ?_
    show decide ((x - y).toInt < 0) = !decide (x.toInt < y.toInt)
    rw [← decide_not, decide_eq_decide]
    omega

end Comparison

/-! ## Comparisons on the machine -/

/-- A comparison has given its answer: it is on the stack in place of the operands, and all cells
but its own and the stack pointer are as they were. -/
structure Memory.Answered (M M' : Memory) (answer : Bool) : Prop where
  sp : M'.sp = M.sp - 1
  top : M'.top = truth answer
  others : ∀ a, a ≠ 0 → a ≠ M.sp - 2 → M'.read a = M.read a

theorem Memory.top_push {M : Memory} {v : Word} (h : M.HasRoom 1) : (M.push v).top = v := by
  rw [top, sp_push, BitVec.add_sub_cancel, read_sp_push h]

theorem Memory.answered_push {M : Memory} (h : M.HasValues 2) (b : Bool) :
    M.Answered (M.drop.drop.push (truth b)) b where
  sp := by
    rw [sp_push, sp_drop, sp_drop, BitVec.sub_add_cancel]
  top := top_push h.drop.hasRoom_drop
  others := by
    intro a h0 ha
    have hs : M.drop.drop.sp = M.sp - 2 := by
      rw [sp_drop, sp_drop, Core.sub_sub_one M.sp 1]
      rfl
    rw [read_push h0 (by rwa [hs]), read_drop h0, read_drop h0]

/-- The operand below the one on top. -/
theorem Memory.top_drop {M : Memory} (h : M.HasValues 2) : M.drop.top = M.read (M.sp - 2) := by
  rw [top, read_drop (h.drop.sub_one_ne (by decide)), sp_drop, Core.sub_sub_one M.sp 1]
  rfl

/-- The machine executes the words of a comparison, from the first one to the next command. -/
theorem Translated.advance_of_comparison {o : Options} {units : List SourceUnit} {p : Program}
    (h : Translated o units p) {pc : Nat} {s : Site} {n : Numbering}
    (hq : Placed (pieces o units) pc (.command s n)) {c : Comparison}
    (hc : s.command = .arithmetic c.op) (hend : pc + (Piece.command s n).size ≤ maxWord)
    {m : Machine} {M : Memory} (hm : m.Shows ⟨M, BitVec.ofNat 16 pc⟩) (hv : M.HasValues 2) :
    ∃ k m', m.advance (Rom.link p.instructions) k = some m' ∧
      m'.Shows ⟨M.drop.drop.push (c.op.result (M.read (M.sp - 2)) M.top),
        BitVec.ofNat 16 (pc + (Piece.command s n).size)⟩ := by
  have hx : s.command.expand s.place n = .ok (Expansion.arithmetic n c.op) := by
    rw [hc]
    rfl
  obtain ⟨hh, hw⟩ := h.holdsAt_command hq hx
  have hz : words (Expansion.arithmetic n c.op) = 22 := by cases c <;> rfl
  have harity : c.op.arity = 2 := by cases c <;> rfl
  rw [hw] at hend ⊢
  obtain ⟨k, m', -, ha, hs, -⟩ := hm.advance
    (reaches_arithmetic hh (by rw [hz]; decide) hend (by rwa [harity]))
  rw [ArithmeticOp.apply, if_neg (by rw [harity]; decide), Memory.top_drop hv] at hs
  exact ⟨k, m', ha, hs⟩

/-- The machine goes through a comparison to the next command, and leaves a truth value in place
of the operands. It is the answer for the operands as signed integers where the sign of their
difference settles it, and the opposite one where it does not. -/
theorem comparison_of_translated {o : Options} {units : List SourceUnit} {p : Program} {r : Rom}
    (hp : translate o units = .ok p) (hr : Rom.load p.text = .ok r) {pc : Nat} {s : Site}
    {n : Numbering} (hq : Placed (pieces o units) pc (.command s n)) {c : Comparison}
    (hc : s.command = .arithmetic c.op) (hend : pc + (Piece.command s n).size ≤ maxWord)
    {m : Machine} {M : Memory} (hm : m.Shows ⟨M, BitVec.ofNat 16 pc⟩) (hv : M.HasValues 2)
    {x y : Word} (hx : M.read (M.sp - 2) = x) (hy : M.top = y) :
    ∃ k m', m.advance r k = some m' ∧ m'.state = .running ∧
      m'.pc = BitVec.ofNat 16 (pc + (Piece.command s n).size) ∧
      (c.SettledBySign x y → M.Answered m'.memory (c.holds x.toInt y.toInt)) ∧
      (¬ c.SettledBySign x y → M.Answered m'.memory (!c.holds x.toInt y.toInt)) := by
  have ht := translated_of_translate hp
  obtain rfl := ht.eq_link_of_load hr
  obtain ⟨k, m', ha, hs⟩ := ht.advance_of_comparison hq hc hend hm hv
  rw [hx, hy] at hs
  refine ⟨k, m', ha, hs.state, hs.pc, fun h => ?_, fun h => ?_⟩
  · rw [hs.memory, Comparison.result_of_settledBySign h]
    exact Memory.answered_push hv _
  · rw [hs.memory, Comparison.result_of_not_settledBySign h]
    exact Memory.answered_push hv _

/-! ## One comparison -/

/-- A unit of one command. -/
def comparingUnit : SourceUnit := ⟨"Main", "gt"⟩

def comparingSite : Site := ⟨⟨"Main", ⟨"Main"⟩⟩, "gt", .arithmetic .gt⟩

theorem placed_comparingSite :
    Placed (pieces ⟨false, .never⟩ [comparingUnit]) 0 (.command comparingSite ⟨0, 0⟩) := by
  have hs : sites [comparingUnit] = [comparingSite] := by decide +kernel
  refine ⟨[], [.halt], ?_, rfl⟩
  rw [pieces, hs]
  rfl

/-- Memory with nothing on the stack. -/
def emptyStack : Memory := Memory.write Machine.initial.memory 0 256

def operandMemory (x y : Word) : Memory := (emptyStack.push x).push y

theorem sp_emptyStack : emptyStack.sp = 256 := Memory.read_write_self (by decide)

theorem hasRoom_emptyStack : emptyStack.HasRoom 2 := by
  rw [Memory.HasRoom, sp_emptyStack]
  decide

section

variable (x y : Word)

theorem sp_operandMemory : (operandMemory x y).sp = 258 := by
  rw [operandMemory, Memory.sp_push, Memory.sp_push, sp_emptyStack]
  rfl

theorem hasValues_operandMemory : (operandMemory x y).HasValues 2 := by
  rw [Memory.HasValues, sp_operandMemory]
  decide

theorem top_operandMemory : (operandMemory x y).top = y :=
  Memory.top_push (hasRoom_emptyStack.push x)

theorem below_operandMemory : (operandMemory x y).read ((operandMemory x y).sp - 2) = x := by
  have hx := Memory.read_sp_push (v := x) (hasRoom_emptyStack.mono (by decide))
  rw [sp_emptyStack] at hx
  rw [sp_operandMemory, operandMemory, Memory.read_push (by decide)
    (by rw [Memory.sp_push, sp_emptyStack]; decide)]
  exact hx

/-- The machine that is about to compare the two words. -/
def operandMachine : Machine := { Machine.initial with memory := operandMemory x y }

theorem shows_operandMachine : (operandMachine x y).Shows ⟨operandMemory x y, 0⟩ := ⟨rfl, rfl, rfl⟩

end

/-- A hundred is greater than minus three. -/
theorem comparison_of_small_words :
    ∃ p r k m, translate ⟨false, .never⟩ [comparingUnit] = .ok p ∧ Rom.load p.text = .ok r ∧
      (operandMachine 100 (-3)).advance r k = some m ∧ m.pc = 22 ∧
      (operandMemory 100 (-3)).Answered m.memory true := by
  obtain ⟨p, hp⟩ : ∃ p, translate ⟨false, .never⟩ [comparingUnit] = .ok p := ⟨_, rfl⟩
  have hr := (translated_of_translate hp).load_text
  obtain ⟨k, m, ha, -, hpc, hright, -⟩ := comparison_of_translated hp hr placed_comparingSite
    (c := .gt) rfl (by decide) (shows_operandMachine 100 (-3)) (hasValues_operandMemory _ _)
    (below_operandMemory _ _) (top_operandMemory _ _)
  exact ⟨p, _, k, m, hp, hr, ha, hpc, hright (by decide)⟩

/-- The greatest word is not found to be greater than minus one. -/
theorem comparison_of_far_words :
    ∃ p r k m, translate ⟨false, .never⟩ [comparingUnit] = .ok p ∧ Rom.load p.text = .ok r ∧
      (operandMachine 32767 (-1)).advance r k = some m ∧ m.pc = 22 ∧ Memory.top m.memory = 0 ∧
      (-1 : Word).toInt < (32767 : Word).toInt := by
  obtain ⟨p, hp⟩ : ∃ p, translate ⟨false, .never⟩ [comparingUnit] = .ok p := ⟨_, rfl⟩
  have ht := translated_of_translate hp
  obtain ⟨k, m, ha, hs⟩ := ht.advance_of_comparison placed_comparingSite (c := .gt) rfl
    (by decide) (shows_operandMachine 32767 (-1)) (hasValues_operandMemory _ _)
  refine ⟨p, _, k, m, hp, ht.load_text, ha, hs.pc, ?_, by decide⟩
  rw [hs.memory, below_operandMemory, top_operandMemory,
    Comparison.result_of_not_settledBySign (by decide)]
  exact (Memory.answered_push (hasValues_operandMemory _ _) _).top

end HackVM
