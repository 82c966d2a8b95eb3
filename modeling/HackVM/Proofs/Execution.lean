import HackVM.Proofs.Layout
import HackVM.Proofs.Memory

/-!
# Executing code in program memory

`Machine.after?` takes a number of steps without a fault, and `Machine.advance` executes a number
of words, without meeting a halt loop either. Code without jumps acts on memory and the two
registers alone: `Core.exec` says how. Where program memory holds such code, the machine goes
through it in as many steps as it has words.
-/

namespace HackVM

open Assembly Instruction

/-! ## Runs of a given length -/

namespace Machine

/-- The machine `n` words later, unless it comes to a fault or a halt loop before. -/
def advance (r : Rom) : Nat → Machine → Option Machine
  | 0, m => some m
  | n + 1, m =>
    if r.haltsAt m.pc then none
    else
      match m.step r with
      | (none, m') => advance r n m'
      | (some _, _) => none

/-- The machine after `n` steps, if none of them is a fault. -/
def after? (r : Rom) : Nat → Machine → Option Machine
  | 0, m => some m
  | n + 1, m =>
    match m.step r with
    | (none, m') => after? r n m'
    | (some _, _) => none

theorem advance_add (r : Rom) (k n : Nat) (m : Machine) :
    m.advance r (k + n) = (m.advance r k).bind (·.advance r n) := by
  induction k generalizing m with
  | zero => rw [Nat.zero_add, advance, Option.bind_some]
  | succ k ih =>
    rw [Nat.succ_add, advance, advance]
    by_cases h : r.haltsAt m.pc = true
    · rw [if_pos h, if_pos h]
      rfl
    · rw [if_neg h, if_neg h]
      split
      · exact ih _
      · rfl

theorem step_of_haltsAt {r : Rom} {m : Machine} (h : r.haltsAt m.pc = true) :
    m.step r = (none, { m with state := .halted }) := if_pos h

theorem step_of_not_haltsAt {r : Rom} {m : Machine} (h : r.haltsAt m.pc = false) :
    m.step r = m.execute r := by
  rw [step, h]
  rfl

/-- At a halt loop there is no fault. -/
theorem haltsAt_of_fault {r : Rom} {m m' : Machine} {fault : MachineFault}
    (h : m.step r = (some fault, m')) : r.haltsAt m.pc = false := by
  refine Bool.eq_false_iff.2 fun hh => ?_
  rw [step_of_haltsAt hh] at h
  cases h

/-- A plain step without a fault performs the word at the program counter. -/
theorem eq_perform_of_execute {r : Rom} {m m' : Machine} (h : m.execute r = (none, m')) :
    ∃ op, r.code[m.pc.toNat]? = some op ∧
      m' = ({ m with steps := m.steps + 1 } : Machine).perform op := by
  rw [execute] at h
  cases hop : r.code[m.pc.toNat]? with
  | none =>
    rw [hop] at h
    cases h
  | some op =>
    rw [hop] at h
    dsimp only at h
    split at h
    · cases h
    · exact ⟨op, rfl, (Prod.mk.inj h).2.symm⟩

theorem execute_state (r : Rom) (m : Machine) : (m.execute r).2.state = m.state := by
  rw [execute]
  split
  · rfl
  · dsimp only
    split
    · rfl
    · exact perform_state _ _

theorem state_of_execute {r : Rom} {m m' : Machine} (h : m.execute r = (none, m')) :
    m'.state = m.state := by
  rw [← execute_state r m, h]

/-- A run that has budget for the words goes on behind them. -/
theorem runWithin_of_advance {r : Rom} {limit k : Nat} {m m' : Machine}
    (hm : m.state = .running) (h : m.advance r k = some m') (budget : Nat) :
    runWithin r limit (budget + k) m = runWithin r limit budget m' ∧ m'.state = .running := by
  induction k generalizing m with
  | zero =>
    cases h
    exact ⟨rfl, hm⟩
  | succ k ih =>
    rw [advance] at h
    split at h
    · cases h
    · rename_i hh
      have hs : m.step r = m.execute r := if_neg hh
      split at h
      · rename_i m₁ he
        have hr : m₁.state = .running := (state_of_execute (hs ▸ he)).trans hm
        have hw : runWithin r limit (budget + (k + 1)) m = runWithin r limit (budget + k) m₁ := by
          rw [← Nat.add_assoc, runWithin.eq_def, hm]
          simp only [he]
        rw [hw]
        exact ih hr h
      · cases h

/-- A run that has not budget for the words ends at the limit. -/
theorem runWithin_of_advance_of_lt {r : Rom} {limit k : Nat} {m m' : Machine}
    (hm : m.state = .running) (h : m.advance r k = some m') {budget : Nat} (hb : budget < k) :
    (runWithin r limit budget m).1 = .error (.stepLimit limit) := by
  obtain ⟨n, rfl⟩ := Nat.exists_eq_add_of_lt hb
  rw [Nat.add_assoc, advance_add] at h
  cases hk : m.advance r budget with
  | none =>
    rw [hk] at h
    cases h
  | some m₁ =>
    have hw : runWithin r limit (0 + budget) m = runWithin r limit 0 m₁ ∧ m₁.state = .running :=
      runWithin_of_advance hm hk 0
    obtain ⟨hw, hr⟩ := hw
    rw [Nat.zero_add] at hw
    rw [hw, runWithin.eq_def, hr]

/-- At a halt loop a run with some budget halts. -/
theorem runWithin_of_haltsAt {r : Rom} {limit budget : Nat} {m : Machine}
    (hm : m.state = .running) (h : r.haltsAt m.pc = true) :
    runWithin r limit (budget + 1) m = (.ok m.steps, { m with state := .halted }) := by
  have hs : m.step r = (none, { m with state := .halted }) := if_pos h
  rw [runWithin.eq_def, hm]
  simp only [hs]
  rw [runWithin.eq_def]

theorem runWithin_zero {r : Rom} {limit : Nat} {m : Machine} (hm : m.state = .running) :
    runWithin r limit 0 m = (.error (.stepLimit limit), m) := by
  rw [runWithin.eq_def, hm]

end Machine

/-! ## Code without jumps -/

/-- What code acts on: memory and the two registers. -/
structure Core where
  memory : Memory
  a : Word
  d : Word

namespace Core

/-- The second input of the arithmetic unit. -/
def input (c : Core) (comp : Comp) : Word :=
  match comp.input? with
  | some .m => c.memory.read c.a
  | _ => c.a

/-- A computation whose result goes to its destination. -/
def compute (c : Core) (dest : Option Dest) (comp : Comp) : Core :=
  let v := comp.eval c.d (c.input comp)
  { memory := if dest.any Dest.writesM then c.memory.write c.a v else c.memory
    a := if dest.any Dest.writesA then v else c.a
    d := if dest.any Dest.writesD then v else c.d }

/-- Execute code; there is no result where it jumps, declares a label or leaves memory. -/
def exec (r : Rom) : List Instruction → Core → Option Core
  | [], c => some c
  | .load x :: code, c => exec r code { c with a := r.number x }
  | .compute dest comp none :: code, c =>
    if (Op.compute dest comp none).usesMemory && !Machine.inRange c.a then none
    else exec r code (c.compute dest comp)
  | _ :: _, _ => none

/-- The machine at `pc` that is about to execute. -/
def toMachine (c : Core) (pc steps : Nat) : Machine :=
  ⟨c.memory, c.a, c.d, BitVec.ofNat 16 pc, .running, steps⟩

theorem exec_append (r : Rom) (p q : List Instruction) (c : Core) :
    exec r (p ++ q) c = (exec r p c).bind (exec r q) := by
  induction p generalizing c with
  | nil => rfl
  | cons i p ih =>
    rw [List.cons_append, exec.eq_def, exec.eq_def r (i :: p)]
    cases i with
    | load x => exact ih _
    | label name => rfl
    | comment t => rfl
    | compute dest comp jump =>
      cases jump with
      | some j => rfl
      | none =>
        dsimp only
        split
        · rfl
        · exact ih _

end Core

theorem Machine.eq_toMachine {m : Machine} (h : m.state = .running) :
    m = (⟨m.memory, m.a, m.d⟩ : Core).toMachine m.pc.toNat m.steps := by
  rw [Core.toMachine, BitVec.ofNat_toNat, BitVec.setWidth_eq, ← h]

/-! ## Steps from core to core -/

theorem toNat_ofNat_of_le {n : Nat} (h : n ≤ maxWord) : (BitVec.ofNat 16 n).toNat = n := by
  have hn : n ≤ 65535 := h
  rw [BitVec.toNat_ofNat]
  omega

/-- In `k` steps the machine gets from one core at `pc` to another one at `pc'`. -/
def Leads (r : Rom) (k : Nat) (c : Core) (pc : Nat) (c' : Core) (pc' : Nat) : Prop :=
  ∀ n, (c.toMachine pc n).advance r k = some (c'.toMachine pc' (n + k))

theorem Leads.refl (r : Rom) (c : Core) (pc : Nat) : Leads r 0 c pc c pc := fun _ => rfl

theorem Leads.trans {r : Rom} {k l : Nat} {c c₁ c₂ : Core} {pc pc₁ pc₂ : Nat}
    (h : Leads r k c pc c₁ pc₁) (h' : Leads r l c₁ pc₁ c₂ pc₂) :
    Leads r (k + l) c pc c₂ pc₂ := by
  intro n
  rw [Machine.advance_add, h n, Option.bind_some, h' (n + k), Nat.add_assoc]

/-- One word that is no halt loop and stays in memory is one step. -/
theorem leads_one {r : Rom} {c c' : Core} {pc pc' : Nat} {op : Op} (hpc : pc ≤ maxWord)
    (hop : r.code[pc]? = some op) (hh : r.haltsAt (BitVec.ofNat 16 pc) = false)
    (hm : (op.usesMemory && !Machine.inRange c.a) = false)
    (hp : ∀ n, (c.toMachine pc n).perform op = c'.toMachine pc' n) : Leads r 1 c pc c' pc' := by
  intro n
  have hfetch : r.code[(c.toMachine pc n).pc.toNat]? = some op := by
    show r.code[(BitVec.ofNat 16 pc).toNat]? = some op
    rw [toNat_ofNat_of_le hpc, hop]
  have hs : (c.toMachine pc n).step r = (none, c'.toMachine pc' (n + 1)) := by
    show (if r.haltsAt (BitVec.ofNat 16 pc) then _ else (c.toMachine pc n).execute r) = _
    rw [if_neg (by rw [hh]; decide), Machine.execute, hfetch]
    show (if (op.usesMemory && !Machine.inRange c.a) = true then _
      else (none, (c.toMachine pc (n + 1)).perform op)) = _
    rw [if_neg (by rw [hm]; decide), hp]
  have hn : ¬ r.haltsAt (c.toMachine pc n).pc = true := by
    show ¬ r.haltsAt (BitVec.ofNat 16 pc) = true
    rw [hh]
    decide
  rw [Machine.advance, if_neg hn, hs]
  rfl

/-- A word that is no load begins no halt loop. -/
theorem haltsAt_of_compute {r : Rom} {pc : Nat} {dest : Option Dest} {comp : Comp}
    {jump : Option Jump} (hpc : pc ≤ maxWord)
    (h : r.code[pc]? = some (.compute dest comp jump)) :
    r.haltsAt (BitVec.ofNat 16 pc) = false := by
  rw [Rom.haltsAt, toNat_ofNat_of_le hpc, h]

/-- A load in front of another word begins a halt loop only as a jump to itself. -/
theorem haltsAt_of_load {r : Rom} {pc : Nat} {w : Word} {op : Op} (hpc : pc ≤ maxWord)
    (h : r.code[pc]? = some (.load w)) (h' : r.code[pc + 1]? = some op)
    (hn : ∀ dest, op = .compute dest .zero (some .always) → w ≠ BitVec.ofNat 16 pc) :
    r.haltsAt (BitVec.ofNat 16 pc) = false := by
  rw [Rom.haltsAt, toNat_ofNat_of_le hpc, h, h']
  split
  · rename_i w' dest hw ho
    cases hw
    have hne := hn dest (Option.some.inj ho)
    simpa using hne
  · rfl

theorem ofNat_succ_eq (pc : Nat) : BitVec.ofNat 16 pc + 1 = BitVec.ofNat 16 (pc + 1) := by
  rw [BitVec.ofNat_add]
  rfl

theorem leads_load {r : Rom} {c : Core} {pc : Nat} {x : Address} (hpc : pc ≤ maxWord)
    (h : r.code[pc]? = some (.load (r.number x)))
    (hh : r.haltsAt (BitVec.ofNat 16 pc) = false) :
    Leads r 1 c pc { c with a := r.number x } (pc + 1) := by
  refine leads_one hpc h hh rfl ?_
  intro n
  simp only [Machine.perform, Core.toMachine, ofNat_succ_eq]

theorem input_toMachine (c : Core) (pc n : Nat) (comp : Comp) :
    (c.toMachine pc n).input comp = c.input comp := by
  rw [Machine.input, Core.input]
  cases comp.input? with
  | none => rfl
  | some i =>
    cases i with
    | a => rfl
    | m => rfl

theorem leads_compute {r : Rom} {c : Core} {pc : Nat} {dest : Option Dest} {comp : Comp}
    (hpc : pc ≤ maxWord) (h : r.code[pc]? = some (.compute dest comp none))
    (hm : ((Op.compute dest comp none).usesMemory && !Machine.inRange c.a) = false) :
    Leads r 1 c pc (c.compute dest comp) (pc + 1) := by
  refine leads_one hpc h (haltsAt_of_compute hpc h) hm ?_
  intro n
  simp only [Machine.perform, input_toMachine, Core.compute]
  simp only [Core.toMachine, ofNat_succ_eq, Memory.write, Option.any_none, Bool.false_eq_true,
    if_false]

/-- A jump on a value that is not in memory. -/
theorem leads_branch {r : Rom} {c : Core} {pc : Nat} {comp : Comp} {j : Jump}
    (hpc : pc ≤ maxWord) (h : r.code[pc]? = some (.compute none comp (some j)))
    (hm : comp.readsMemory = false) :
    Leads r 1 c pc c
      (if j.isTaken (comp.eval c.d (c.input comp)) then c.a.toNat else pc + 1) := by
  refine leads_one hpc h (haltsAt_of_compute hpc h) ?_ fun n => ?_
  · simp [Op.usesMemory, hm]
  · simp only [Machine.perform, input_toMachine]
    simp only [Core.toMachine, ofNat_succ_eq, Option.any_none, Bool.false_eq_true, if_false,
      Option.any_some]
    split
    · rw [BitVec.ofNat_toNat, BitVec.setWidth_eq]
    · rfl

/-! ## Blocks -/

/-- Whether code does not end in a load, which may begin a halt loop with the next word. -/
def closed : List Instruction → Bool
  | [] => true
  | [.load _] => false
  | _ :: code => closed code

/-- The machine goes through code without jumps where program memory holds it. -/
theorem leads_block {r : Rom} {code : List Instruction} {c c' : Core} {pc : Nat}
    (h : r.HoldsAt pc code) (hc : closed code = true) (hpc : pc + words code ≤ maxWord + 1)
    (hx : Core.exec r code c = some c') : Leads r (words code) c pc c' (pc + words code) := by
  induction code generalizing c pc with
  | nil =>
    cases hx
    exact Leads.refl r _ pc
  | cons i code ih =>
    cases i with
    | label name => cases hx
    | comment t => cases hx
    | load x =>
      rw [words_load] at hpc ⊢
      rw [show words code + 1 = 1 + words code by omega, ← Nat.add_assoc]
      have hw : pc ≤ maxWord := by omega
      have ht : closed code = true := by
        cases code with
        | nil => cases hc
        | cons i code => exact hc
      refine (leads_load hw h.1 ?_).trans (ih h.2 ht (by omega) hx)
      cases code with
      | nil => cases hc
      | cons i code =>
        cases i with
        | label name => cases hx
        | comment t => cases hx
        | load y =>
          refine haltsAt_of_load hw h.1 h.2.1 ?_
          intro dest he
          cases he
        | compute dest comp jump =>
          cases jump with
          | some j => cases hx
          | none =>
            refine haltsAt_of_load hw h.1 h.2.1 ?_
            intro dest he
            cases he
    | compute dest comp jump =>
      cases jump with
      | some j => cases hx
      | none =>
        rw [words_compute] at hpc ⊢
        rw [show words code + 1 = 1 + words code by omega, ← Nat.add_assoc]
        rw [Core.exec] at hx
        split at hx
        · cases hx
        · rename_i hm
          have ht : closed code = true := hc
          exact (leads_compute (by omega) h.1 (by simpa using hm)).trans
            (ih h.2 ht (by omega) hx)

/-- A jump by way of a loaded target that is no jump to itself. -/
theorem leads_jump {r : Rom} {c : Core} {pc : Nat} {x : Address} {comp : Comp} {j : Jump}
    (hpc : pc + 2 ≤ maxWord + 1) (h : r.HoldsAt pc [load x, branch comp j])
    (hm : comp.readsMemory = false)
    (hn : comp = .zero → j = .always → r.number x ≠ BitVec.ofNat 16 pc) :
    Leads r 2 c pc { c with a := r.number x }
      (if j.isTaken (comp.eval c.d (r.number x)) then (r.number x).toNat else pc + 2) := by
  have hh : r.haltsAt (BitVec.ofNat 16 pc) = false := by
    refine haltsAt_of_load (by omega) h.1 h.2.1 ?_
    intro dest he
    cases he
    exact hn rfl rfl
  have hb := leads_branch (c := { c with a := r.number x }) (by omega) h.2.1 hm
  have hi : (({ c with a := r.number x } : Core).input comp) = r.number x := by
    rw [Core.input]
    split
    · rename_i hr
      rw [Comp.readsMemory, hr] at hm
      cases hm
    · rfl
  rw [hi] at hb
  exact (leads_load (by omega) h.1 hh).trans hb

end HackVM
