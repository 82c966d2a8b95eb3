import HackVM.Proofs.Limits

/-!
# Faults

A word that computes may read the cell that `A` selects, write it, change both registers and pass
control on, one after the other. A fault comes before any of this is done: done stage by stage, with
a fault wherever a cell is not there, the word has the same effect. So a step that is a fault leaves
the machine as it was but for the count, the same fault is met by every further step, and a run that
ends in a fault ends at the word that cannot be executed.
-/

namespace HackVM

open Assembly

/-- Steps that a machine counts when it meets the fault. -/
def MachineFault.cost : MachineFault → Nat
  | memoryOutOfRange _ _ => 1
  | pcOutOfRange _ | stepLimit _ => 0

theorem Op.usesMemory_iff {op : Op} :
    op.usesMemory = true ↔ ∃ dest comp jump, op = .compute dest comp jump ∧
      (comp.readsMemory = true ∨ ∃ t, dest = some t ∧ t.writesM = true) := by
  cases op with
  | load value => simp [usesMemory]
  | compute dest comp jump =>
    rw [usesMemory, Bool.or_eq_true, Option.any_eq_true]
    constructor
    · exact fun h => ⟨dest, comp, jump, rfl, h⟩
    · rintro ⟨_, _, _, h, hu⟩
      cases h
      exact hu

namespace Machine

variable {r : Rom} {m m' : Machine} {fault : MachineFault}

/-! ## Stage by stage -/

/-- The second input of the arithmetic unit, which a read from memory may not give. -/
def fetch (m : Machine) (comp : Comp) : Except MachineFault Word :=
  if comp.readsMemory then m.peek m.a else .ok m.a

/-- Put a value into the places of a destination, first into memory, where there may be no cell. -/
def store (m : Machine) (dest : Option Dest) (value : Word) : Option MachineFault × Machine :=
  match if dest.any Dest.writesM then m.poke m.a value else (none, m) with
  | (some fault, m) => (some fault, m)
  | (none, m) =>
    let m := if dest.any Dest.writesA then { m with a := value } else m
    (none, if dest.any Dest.writesD then { m with d := value } else m)

/-- Execute a word stage by stage, up to the first fault. -/
def stages (m : Machine) : Op → Option MachineFault × Machine
  | .load value => (none, { m with a := value, pc := m.pc + 1 })
  | .compute dest comp jump =>
    match m.fetch comp with
    | .error fault => (some fault, m)
    | .ok y =>
      let value := comp.eval m.d y
      match m.store dest value with
      | (some fault, m) => (some fault, m)
      | (none, m') =>
        (none, { m' with pc := if jump.any (Jump.isTaken value) then m.a else m.pc + 1 })

theorem input_eq (m : Machine) (comp : Comp) :
    m.input comp = if comp.readsMemory then m.cell m.a else m.a := by
  rw [input, Comp.readsMemory]
  cases comp.input? with
  | none => rfl
  | some i => cases i <;> rfl

theorem fetch_eq_ok {comp : Comp} (h : comp.readsMemory = true → inRange m.a = true) :
    m.fetch comp = .ok (m.input comp) := by
  rw [fetch, input_eq]
  by_cases hr : comp.readsMemory = true
  · rw [if_pos hr, if_pos hr, peek, if_pos (h hr)]
  · rw [if_neg hr, if_neg hr]

theorem store_eq_ok {dest : Option Dest} {value : Word}
    (h : dest.any Dest.writesM = true → inRange m.a = true) :
    m.store dest value =
      (none, { m with
        memory := if dest.any Dest.writesM then Memory.write m.memory m.a value else m.memory
        a := if dest.any Dest.writesA then value else m.a
        d := if dest.any Dest.writesD then value else m.d }) := by
  have hm : (if dest.any Dest.writesM then m.poke m.a value else (none, m)) =
      (none, { m with
        memory :=
          if dest.any Dest.writesM then Memory.write m.memory m.a value else m.memory }) := by
    by_cases hw : dest.any Dest.writesM = true
    · rw [if_pos hw, if_pos hw, poke, if_pos (h hw)]
      rfl
    · rw [if_neg hw, if_neg hw]
  rw [store, hm]
  dsimp only
  by_cases ha : dest.any Dest.writesA = true
  · rw [if_pos ha, if_pos ha]
    by_cases hd : dest.any Dest.writesD = true
    · rw [if_pos hd, if_pos hd]
    · rw [if_neg hd, if_neg hd]
  · rw [if_neg ha, if_neg ha]
    by_cases hd : dest.any Dest.writesD = true
    · rw [if_pos hd, if_pos hd]
    · rw [if_neg hd, if_neg hd]

/-- If each cell that a word needs is there, the stages come to the effect of the word. -/
theorem stages_of_inRange {dest : Option Dest} {comp : Comp} (jump : Option Jump)
    (hr : comp.readsMemory = true → inRange m.a = true)
    (hw : dest.any Dest.writesM = true → inRange m.a = true) :
    m.stages (.compute dest comp jump) = (none, m.perform (.compute dest comp jump)) := by
  rw [stages, fetch_eq_ok hr]
  dsimp only
  rw [store_eq_ok hw]
  rfl

/-- The fault comes before any effect, whichever stage it is that needs the cell. -/
theorem stages_eq (m : Machine) (op : Op) :
    m.stages op =
      if op.usesMemory && !inRange m.a then (some (.memoryOutOfRange m.a m.pc), m)
      else (none, m.perform op) := by
  cases op with
  | load value => rfl
  | compute dest comp jump =>
    rw [Op.usesMemory]
    by_cases ha : inRange m.a = true
    · rw [ha, Bool.not_true, Bool.and_false, if_neg Bool.false_ne_true]
      exact stages_of_inRange jump (fun _ => ha) fun _ => ha
    · rw [Bool.not_eq_true] at ha
      rw [ha]
      by_cases hr : comp.readsMemory = true
      · rw [stages, fetch, if_pos hr, hr, peek, ha]
        rfl
      · have hf := fetch_eq_ok (m := m) fun h => absurd h hr
        by_cases hw : dest.any Dest.writesM = true
        · rw [stages, hf, hw, Bool.or_true]
          dsimp only
          rw [store, if_pos hw, poke, ha]
          rfl
        · rw [Bool.eq_false_iff.2 hr, Bool.eq_false_iff.2 hw]
          exact stages_of_inRange jump (fun h => absurd h hr) fun h => absurd h hw

theorem execute_eq_stages {op : Op} (h : r.code[m.pc.toNat]? = some op) :
    m.execute r = ({ m with steps := m.steps + 1 } : Machine).stages op := by
  rw [execute, h, stages_eq]

/-! ## Why a step is a fault -/

/-- Why a step of the machine cannot be executed: there is no word at the program counter, or the
word reads or writes memory and `A` selects no cell. -/
inductive Fails (r : Rom) (m : Machine) : MachineFault → Prop
  | pastEnd : r.size ≤ m.pc.toNat → Fails r m (.pcOutOfRange m.pc)
  | noCell {dest : Option Dest} {comp : Comp} {jump : Option Jump} :
    r.code[m.pc.toNat]? = some (.compute dest comp jump) →
      (comp.readsMemory = true ∨ ∃ t, dest = some t ∧ t.writesM = true) →
      MemoryMap.memorySize ≤ m.a.toNat → Fails r m (.memoryOutOfRange m.a m.pc)

theorem inRange_eq_false_iff {a : Word} :
    inRange a = false ↔ MemoryMap.memorySize ≤ a.toNat := by
  rw [inRange, decide_eq_false_iff_not, Nat.not_lt]

theorem Fails.haltsAt (h : Fails r m fault) : r.haltsAt m.pc = false := by
  cases h with
  | pastEnd h =>
    rw [Rom.haltsAt, Array.getElem?_eq_none h]
  | noCell hop _ _ => rw [Rom.haltsAt, hop]

/-- What the step does that fails. -/
theorem Fails.step_eq (h : Fails r m fault) :
    m.step r = (some fault, { m with steps := m.steps + fault.cost }) := by
  rw [step_of_not_haltsAt h.haltsAt, execute]
  cases h with
  | pastEnd h =>
    rw [Array.getElem?_eq_none h]
    rfl
  | noCell hop hu ha =>
    rw [hop]
    dsimp only
    rw [Op.usesMemory_iff.2 ⟨_, _, _, rfl, hu⟩, inRange_eq_false_iff.2 ha]
    rfl

theorem fails_of_step (h : m.step r = (some fault, m')) : Fails r m fault := by
  rw [step_of_not_haltsAt (haltsAt_of_fault h), execute] at h
  cases hop : r.code[m.pc.toNat]? with
  | none =>
    rw [hop] at h
    cases h
    exact .pastEnd (Array.getElem?_eq_none_iff.1 hop)
  | some op =>
    rw [hop] at h
    dsimp only at h
    split at h
    · rename_i hu
      cases h
      rw [Bool.and_eq_true, Bool.not_eq_true'] at hu
      obtain ⟨dest, comp, jump, rfl, hu'⟩ := Op.usesMemory_iff.1 hu.1
      exact .noCell hop hu' (inRange_eq_false_iff.1 hu.2)
    · cases h

theorem step_eq_some_iff :
    m.step r = (some fault, m') ↔
      Fails r m fault ∧ m' = { m with steps := m.steps + fault.cost } := by
  constructor
  · intro h
    have hf := fails_of_step h
    rw [hf.step_eq] at h
    exact ⟨hf, (Prod.mk.inj h).2.symm⟩
  · rintro ⟨hf, rfl⟩
    exact hf.step_eq

/-! ## Steps that are no faults -/

theorem cell_perform_of_ne (m : Machine) (op : Op) {b : Word} (h : b ≠ m.a) :
    (m.perform op).cell b = m.cell b := by
  cases op with
  | load value => rfl
  | compute dest comp jump =>
    rw [cell, perform]
    dsimp only
    split
    · exact Memory.read_write_of_ne (M := m.memory) h.symm
    · rfl

/-- A step changes at most the cell that `A` selects before it. -/
theorem cell_step_of_ne (r : Rom) (m : Machine) {b : Word} (h : b ≠ m.a) :
    (m.step r).2.cell b = m.cell b := by
  rw [step]
  split
  · rfl
  · rw [execute]
    split
    · rfl
    · rename_i op _
      dsimp only
      split
      · rfl
      · exact cell_perform_of_ne { m with steps := m.steps + 1 } op h

/-! ## After a fault -/

/-- The machine after `n` calls of `step`, whatever they answer. -/
def calls (r : Rom) : Nat → Machine → Machine
  | 0, m => m
  | n + 1, m => calls r n (m.step r).2

/-- Whether a step fails depends on the program counter and `A` alone. -/
theorem Fails.congr (h : Fails r m fault) (hpc : m'.pc = m.pc) (ha : m'.a = m.a) :
    Fails r m' fault := by
  cases h with
  | pastEnd h =>
    rw [← hpc] at h ⊢
    exact .pastEnd h
  | noCell hop hu h =>
    rw [← hpc] at hop ⊢
    rw [← ha] at h ⊢
    exact .noCell hop hu h

theorem Fails.calls_eq (h : Fails r m fault) (n : Nat) :
    m.calls r n = { m with steps := m.steps + n * fault.cost } := by
  induction n generalizing m with
  | zero =>
    rw [calls, Nat.zero_mul]
    rfl
  | succ n ih =>
    have h' : Fails r { m with steps := m.steps + fault.cost } fault := h.congr rfl rfl
    rw [calls, h.step_eq]
    dsimp only
    rw [ih h']
    dsimp only
    rw [Nat.succ_mul, Nat.add_assoc, Nat.add_comm fault.cost]

/-- A machine that a run leaves with a fault is at the word that cannot be executed. -/
theorem Stepped.fails {x : Except MachineFault Nat × Machine} (h : Stepped r m x)
    (hx : x.1 = .error fault) (hl : ∀ limit, fault ≠ .stepLimit limit) :
    ∃ n m₁, m.after? r n = some m₁ ∧ m₁.state = .running ∧ Fails r m₁ fault ∧
      x.2 = { m₁ with steps := m₁.steps + fault.cost } := by
  cases h with
  | halted ha hs => cases hx
  | limit ha hs hc =>
    cases hx
    exact absurd rfl (hl _)
  | fault ha hs hf =>
    cases hx
    obtain ⟨hfails, hm⟩ := step_eq_some_iff.1 hf
    exact ⟨_, _, ha, hs, hfails, hm⟩

/-- A step that is a fault changes nothing but the count. A word has its effect stage by stage or
all at once, which is the same. A step fails for the two reasons there are and for no other, and
else changes at most the cell that `A` selects. When it fails the machine is as before, with one
more step counted if memory was the reason; so it fails again and again, and a run that ends in a
fault leaves the machine at the word that fails. -/
theorem faults_of_step (r : Rom) (m : Machine) :
    (∀ op, r.haltsAt m.pc = false → r.code[m.pc.toNat]? = some op →
        m.step r = ({ m with steps := m.steps + 1 } : Machine).stages op) ∧
      (∀ fault m', m.step r = (some fault, m') ↔
        Fails r m fault ∧ m' = { m with steps := m.steps + fault.cost }) ∧
      (∀ b, b ≠ m.a → (m.step r).2.cell b = m.cell b) ∧
      (∀ fault, Fails r m fault → ∀ n, (m.calls r n).step r =
        (some fault, { m with steps := m.steps + (n + 1) * fault.cost })) ∧
      ∀ limit fault m', m.run r limit = (.error fault, m') → (∀ l, fault ≠ .stepLimit l) →
        ∃ n m₁, m.after? r n = some m₁ ∧ m₁.state = .running ∧ Fails r m₁ fault ∧
          m' = { m₁ with steps := m₁.steps + fault.cost } := by
  refine ⟨?_, fun _ _ => step_eq_some_iff, fun b => cell_step_of_ne r m, ?_, ?_⟩
  · intro op hh hop
    rw [step_of_not_haltsAt hh, execute_eq_stages hop]
  · intro fault hf n
    have hn : Fails r (m.calls r n) fault := by
      rw [hf.calls_eq]
      exact hf.congr rfl rfl
    rw [hn.step_eq, hf.calls_eq, Nat.succ_mul, Nat.add_assoc]
  · intro limit fault m' hrun hl
    have h := stepped_run r m limit
    rw [hrun] at h
    exact h.fails rfl hl

/-- The third word is to read and write a cell that is none, to change both registers, and to
jump. -/
def faultingProgram : Rom :=
  ⟨#[.load 32767, .compute (some .a) (.incY .a) none,
    .compute (some .amd) (.incY .m) (some .always)], [], []⟩

theorem faults_of_faultingProgram :
    Rom.load "@32767\nA=A+1\nAMD=M+1;JMP\n" = .ok faultingProgram ∧
      ∃ n m₁, initial.after? faultingProgram n = some m₁ ∧
        (initial.run faultingProgram 9).2 = { m₁ with steps := m₁.steps + 1 } ∧
        ∀ k, (m₁.calls faultingProgram k).step faultingProgram =
          (some (.memoryOutOfRange 32768 2), { m₁ with steps := m₁.steps + (k + 1) * 1 }) := by
  obtain ⟨n, m₁, hn, -, hf, hm⟩ := (faults_of_step faultingProgram initial).2.2.2.2 9
    (.memoryOutOfRange 32768 2) _ rfl fun _ h => by cases h
  refine ⟨rfl, n, m₁, hn, hm, ?_⟩
  exact (faults_of_step faultingProgram m₁).2.2.2.1 _ hf

end Machine

end HackVM
