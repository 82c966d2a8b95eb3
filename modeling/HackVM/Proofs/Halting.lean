import HackVM.Proofs.Execution

/-!
# Halt loops

The machine halts where a word loads its own address and the next one jumps there. Going round
this loop by plain steps, which do not look for it, the machine stays at the two words. But the
jump may have a destination, and it stores the zero that it computes: the loop leaves memory and
`D` alone only if they hold the zero already, and it meets a fault if the cell to store to is
none. How the machine goes on from a halt loop is therefore told for every destination.
-/

namespace HackVM

open Assembly

namespace Machine

/-! ## Plain steps -/

/-- The machine after `n` plain steps, each of which executes the word at the program counter,
or at the first fault. -/
def executes (r : Rom) : Nat → Machine → Option MachineFault × Machine
  | 0, m => (none, m)
  | n + 1, m =>
    match m.execute r with
    | (none, m') => executes r n m'
    | (some fault, m') => (some fault, m')

/-- By plain steps the machine stays for ever at the word where it is and the next one, meets no
fault, and changes neither memory nor `D`. -/
def Settled (r : Rom) (m : Machine) : Prop :=
  ∀ n, ∃ m', m.executes r n = (none, m') ∧ (m'.pc = m.pc ∨ m'.pc = m.pc + 1) ∧
    m'.memory = m.memory ∧ m'.d = m.d

variable {r : Rom} {m : Machine}

theorem execute_load {value : Word} (h : r.code[m.pc.toNat]? = some (.load value)) :
    m.execute r = (none, { m with a := value, pc := m.pc + 1, steps := m.steps + 1 }) := by
  rw [execute, h]
  rfl

theorem usesMemory_zero (dest : Option Dest) (jump : Option Jump) :
    (Op.compute dest .zero jump).usesMemory = dest.any Dest.writesM := Bool.false_or _

/-- A jump that also stores the zero that it computes. -/
theorem execute_jump {dest : Option Dest}
    (h : r.code[m.pc.toNat]? = some (.compute dest .zero (some .always))) :
    m.execute r =
      if dest.any Dest.writesM && !inRange m.a then
        (some (.memoryOutOfRange m.a m.pc), { m with steps := m.steps + 1 })
      else
        (none,
          { memory := if dest.any Dest.writesM then Memory.write m.memory m.a 0 else m.memory
            a := if dest.any Dest.writesA then 0 else m.a
            d := if dest.any Dest.writesD then 0 else m.d
            pc := m.a
            state := m.state
            steps := m.steps + 1 }) := by
  rw [execute, h]
  dsimp only
  rw [usesMemory_zero]
  rfl

/-! ## The loop -/

end Machine

/-- At the address there is a jump to the address, with this destination. -/
structure Rom.LoopAt (r : Rom) (pc : Word) (dest : Option Dest) : Prop where
  load : r.code[pc.toNat]? = some (.load pc)
  jump : r.code[pc.toNat + 1]? = some (.compute dest .zero (some .always))
  toNat_succ : (pc + 1).toNat = pc.toNat + 1

theorem Rom.exists_loopAt {r : Rom} {pc : Word} (hs : r.size ≤ maxWord)
    (h : r.haltsAt pc = true) : ∃ dest, r.LoopAt pc dest := by
  rw [haltsAt] at h
  split at h
  · rename_i target dest hload hjump
    rw [eq_of_beq h] at hload
    have hlt : pc.toNat + 1 < r.size := (Array.getElem?_eq_some_iff.1 hjump).1
    have hmax : maxWord = 65535 := rfl
    refine ⟨dest, hload, hjump, ?_⟩
    rw [BitVec.toNat_add]
    show (pc.toNat + 1) % 65536 = pc.toNat + 1
    omega
  · cases h

namespace Machine

variable {r : Rom} {dest : Option Dest} {s m : Machine}

/-- A machine that has gone round the loop from `s`: it is at the load or, with the address
loaded, at the jump, and what has changed is zero now. -/
structure InLoop (dest : Option Dest) (s m : Machine) : Prop where
  place : m.pc = s.pc ∨ m.pc = s.pc + 1 ∧ m.a = s.pc
  memory : m.memory = s.memory ∨
    dest.any Dest.writesM = true ∧ m.memory = Memory.write s.memory s.pc 0
  d : m.d = s.d ∨ dest.any Dest.writesD = true ∧ m.d = 0

theorem InLoop.refl (dest : Option Dest) (s : Machine) : InLoop dest s s :=
  ⟨.inl rfl, .inl rfl, .inl rfl⟩

/-- One plain step stays in the loop. -/
theorem InLoop.execute (h : InLoop dest s m) (hl : r.LoopAt s.pc dest) :
    InLoop dest s (m.execute r).2 := by
  obtain hpc | ⟨hpc, ha⟩ := h.place
  · rw [execute_load (by rw [hpc]; exact hl.load)]
    exact ⟨.inr ⟨congrArg (· + 1) hpc, rfl⟩, h.memory, h.d⟩
  · rw [execute_jump (by rw [hpc, hl.toNat_succ]; exact hl.jump)]
    by_cases hf : (dest.any Dest.writesM && !inRange m.a) = true
    · rw [if_pos hf]
      exact ⟨h.place, h.memory, h.d⟩
    · rw [if_neg hf]
      refine ⟨.inl ha, ?_, ?_⟩
      · by_cases hw : dest.any Dest.writesM = true
        · refine .inr ⟨hw, ?_⟩
          dsimp only
          rw [if_pos hw, ha]
          -- storing the zero once more changes nothing
          obtain hm | ⟨-, hm⟩ := h.memory
          · rw [hm]
          · rw [hm, Memory.write_write_self]
        · dsimp only
          rw [if_neg hw]
          exact h.memory
      · by_cases hw : dest.any Dest.writesD = true
        · exact .inr ⟨hw, if_pos hw⟩
        · dsimp only
          rw [if_neg hw]
          exact h.d

/-- The only fault in a loop is that the jump stores to no cell. -/
theorem InLoop.fault (h : InLoop dest s m) (hl : r.LoopAt s.pc dest) {fault : MachineFault}
    (hf : (m.execute r).1 = some fault) :
    fault = .memoryOutOfRange s.pc (s.pc + 1) ∧ dest.any Dest.writesM = true ∧
      inRange s.pc = false := by
  obtain hpc | ⟨hpc, ha⟩ := h.place
  · rw [execute_load (by rw [hpc]; exact hl.load)] at hf
    cases hf
  · rw [execute_jump (by rw [hpc, hl.toNat_succ]; exact hl.jump), ha, hpc] at hf
    by_cases hw : (dest.any Dest.writesM && !inRange s.pc) = true
    · rw [if_pos hw] at hf
      cases hf
      rw [Bool.and_eq_true, Bool.not_eq_true'] at hw
      exact ⟨rfl, hw⟩
    · rw [if_neg hw] at hf
      cases hf

/-- What holds after any number of plain steps in a loop. -/
theorem InLoop.executes (h : InLoop dest s m) (hl : r.LoopAt s.pc dest) (n : Nat) :
    InLoop dest s (m.executes r n).2 ∧ ∀ fault, (m.executes r n).1 = some fault →
      fault = .memoryOutOfRange s.pc (s.pc + 1) ∧ dest.any Dest.writesM = true ∧
        inRange s.pc = false := by
  induction n generalizing m with
  | zero =>
    refine ⟨h, ?_⟩
    intro fault hf
    cases hf
  | succ n ih =>
    have hm := h.execute hl
    rw [Machine.executes]
    cases hx : m.execute r with
    | mk first m' =>
      rw [hx] at hm
      cases first with
      | none => exact ih hm
      | some fault =>
        refine ⟨hm, ?_⟩
        intro _ hf
        cases hf
        exact h.fault hl (by rw [hx])

/-! ## Loops that change nothing -/

/-- The zero that the jump of a loop computes is already wherever its destination stores it. -/
def StoredZero (dest : Option Dest) (s : Machine) : Prop :=
  (dest.any Dest.writesM = true → inRange s.pc = true ∧ Memory.read s.memory s.pc = 0) ∧
    (dest.any Dest.writesD = true → s.d = 0)

/-- A jump without destination stores nothing. -/
theorem storedZero_none (s : Machine) : StoredZero none s := by
  constructor
  · intro hw
    cases hw
  · intro hw
    cases hw

theorem InLoop.unchanged (h : InLoop dest s m) (hz : StoredZero dest s) :
    m.memory = s.memory ∧ m.d = s.d := by
  constructor
  · obtain hm | ⟨hw, hm⟩ := h.memory
    · exact hm
    · obtain ⟨hr, h0⟩ := hz.1 hw
      rw [hm, Memory.write_of_read h0 (Memory.inRange_iff.1 hr)]
  · obtain hd | ⟨hw, hd⟩ := h.d
    · exact hd
    · rw [hd, hz.2 hw]

/-- Once round the loop. -/
theorem executes_two (hl : r.LoopAt s.pc dest)
    (hf : (dest.any Dest.writesM && !inRange s.pc) = false) :
    s.executes r 2 =
      (none,
        { memory := if dest.any Dest.writesM then Memory.write s.memory s.pc 0 else s.memory
          a := if dest.any Dest.writesA then 0 else s.pc
          d := if dest.any Dest.writesD then 0 else s.d
          pc := s.pc
          state := s.state
          steps := s.steps + 2 }) := by
  rw [executes, execute_load hl.load]
  dsimp only
  rw [executes, execute_jump (by rw [hl.toNat_succ]; exact hl.jump), hf]
  rfl

theorem executes_two_of_outOfRange (hl : r.LoopAt s.pc dest)
    (hf : (dest.any Dest.writesM && !inRange s.pc) = true) :
    (s.executes r 2).1 = some (.memoryOutOfRange s.pc (s.pc + 1)) := by
  rw [executes, execute_load hl.load]
  dsimp only
  rw [executes, execute_jump (by rw [hl.toNat_succ]; exact hl.jump), hf]
  rfl

/-- A machine at a halt loop is settled just if the zero of the jump is stored already. -/
theorem settled_iff (hl : r.LoopAt s.pc dest) : Settled r s ↔ StoredZero dest s := by
  constructor
  · intro h
    obtain ⟨m, hm, -, hmemory, hd⟩ := h 2
    by_cases hf : (dest.any Dest.writesM && !inRange s.pc) = true
    · have hfault := executes_two_of_outOfRange hl hf
      rw [hm] at hfault
      cases hfault
    · rw [executes_two hl (Bool.eq_false_iff.2 hf)] at hm
      cases hm
      dsimp only at hmemory hd
      refine ⟨fun hw => ?_, fun hw => ?_⟩
      · have hr : inRange s.pc = true := by simpa [hw] using hf
        rw [if_pos hw] at hmemory
        rw [← hmemory, Memory.read_write_self (Memory.inRange_iff.1 hr)]
        exact ⟨hr, rfl⟩
      · rw [if_pos hw] at hd
        exact hd.symm
  · intro hz n
    obtain ⟨hin, hfault⟩ := (InLoop.refl dest s).executes hl n
    refine ⟨(s.executes r n).2, ?_, hin.place.imp_right And.left, hin.unchanged hz⟩
    cases hx : (s.executes r n).1 with
    | none => rw [← hx]
    | some fault =>
      obtain ⟨-, hw, hr⟩ := hfault fault hx
      rw [(hz.1 hw).1] at hr
      cases hr

/-! ## Halted machines -/

/-- A step halts a running machine only where a loop begins, and does nothing else. -/
theorem halts_of_step (hr : m.state = .running) (hh : (m.step r).2.state = .halted) :
    r.haltsAt m.pc = true ∧ m.step r = (none, { m with state := .halted }) := by
  by_cases h : r.haltsAt m.pc = true
  · exact ⟨h, if_pos h⟩
  · rw [step, if_neg h, execute_state, hr] at hh
    cases hh

/-- Where a step halts a running machine there is a halt loop. By plain steps from there the
machine goes round the loop. It is settled just if the jump of the loop stores no zero that is
new, and the only fault it can meet is that the jump stores to no cell. -/
theorem settled_iff_of_halts {fault? : Option MachineFault} {m' : Machine}
    (hs : r.size ≤ maxWord) (hr : m.state = .running) (hstep : m.step r = (fault?, m'))
    (hh : m'.state = .halted) :
    fault? = none ∧ m' = { m with state := .halted } ∧
      ∃ dest, r.LoopAt m.pc dest ∧ (Settled r m' ↔ StoredZero dest m') ∧
        ∀ n, InLoop dest m' (m'.executes r n).2 ∧ ∀ fault, (m'.executes r n).1 = some fault →
          fault = .memoryOutOfRange m.pc (m.pc + 1) ∧ dest.any Dest.writesM = true ∧
            inRange m.pc = false := by
  have hh' : (m.step r).2.state = .halted := by rw [hstep]; exact hh
  obtain ⟨hat, heq⟩ := halts_of_step hr hh'
  rw [hstep] at heq
  cases heq
  obtain ⟨dest, hl⟩ := Rom.exists_loopAt hs hat
  refine ⟨rfl, rfl, dest, hl, settled_iff hl, ?_⟩
  intro n
  exact (InLoop.refl dest { m with state := .halted }).executes hl n

def bareLoop : Rom := ⟨#[.load 0, .compute none .zero (some .always)], [("L", 0)], []⟩

theorem settled_of_bareLoop :
    Rom.load "(L)\n@L\n0;JMP\n" = .ok bareLoop ∧
      initial.step bareLoop = (none, { initial with state := .halted }) ∧
      Settled bareLoop { initial with state := .halted } := by
  have hstep : initial.step bareLoop = (none, { initial with state := .halted }) := rfl
  obtain ⟨-, -, dest, hl, hiff, -⟩ :=
    settled_iff_of_halts (r := bareLoop) (by decide) rfl hstep rfl
  refine ⟨rfl, hstep, hiff.2 ?_⟩
  have hdest : dest = none := by
    have hj := hl.jump
    cases hj
    rfl
  rw [hdest]
  exact storedZero_none _

def storingLoop : Rom := ⟨#[.load 0, .compute (some .m) .zero (some .always)], [("L", 0)], []⟩

/-- The machine before the first step, with a five in cell 0. -/
def primed : Machine := { initial with memory := Memory.write initial.memory 0 5 }

/-- A machine is halted at a loop that is about to store its zero over the five. -/
theorem not_settled_of_storingLoop :
    Rom.load "(L)\n@L\nM=0;JMP\n" = .ok storingLoop ∧ storingLoop.size ≤ maxWord ∧
      primed.state = .running ∧ primed.pc.toNat < storingLoop.size ∧
      primed.step storingLoop = (none, { primed with state := .halted }) ∧
      ¬ Settled storingLoop { primed with state := .halted } := by
  refine ⟨rfl, by decide, rfl, by decide, rfl, ?_⟩
  have hl : storingLoop.LoopAt primed.pc (some .m) := ⟨rfl, rfl, rfl⟩
  intro h
  obtain ⟨-, h0⟩ := ((settled_iff (s := { primed with state := .halted }) hl).1 h).1 rfl
  have h5 : Memory.read primed.memory 0 = 5 := Memory.read_write_self (by decide)
  have h05 : (5 : Word) = 0 := h5.symm.trans h0
  cases h05

end Machine

end HackVM
