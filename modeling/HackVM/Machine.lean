import HackVM.Machine.Rom

/-!
# The machine

The machine has two registers, a program counter and a memory, and executes one word of
program memory a step. A step that cannot be executed is a fault and changes nothing but the
count of steps.

A program halts by a jump to itself: an instruction that loads its own address, followed by
an unconditional jump. The machine recognises the loop when it comes to it, and stays there
without counting a step.
-/

namespace HackVM

open Assembly

inductive MachineState
  | running | halted
deriving DecidableEq, Repr

structure Machine where
  memory : Vector Word MemoryMap.memorySize
  a : Word
  d : Word
  pc : Word
  state : MachineState
  steps : Nat
deriving DecidableEq

inductive MachineFault
  | memoryOutOfRange (address pc : Word)
  | pcOutOfRange (pc : Word)
  | stepLimit (limit : Nat)
deriving DecidableEq, Repr

def MachineFault.message : MachineFault → String
  | memoryOutOfRange address pc =>
    "memory access at " ++ Text.decimal address.toNat ++ " out of range (pc " ++
      Text.decimal pc.toNat ++ ")"
  | pcOutOfRange pc =>
    "program counter " ++ Text.decimal pc.toNat ++ " ran past the end of the program"
  | stepLimit limit => "no halt loop reached within " ++ Text.decimal limit ++ " steps"

namespace Op

/-- Whether executing the word reads or writes the cell that `A` selects. -/
def usesMemory : Op → Bool
  | load _ => false
  | compute dest comp _ => comp.readsMemory || dest.any Dest.writesM

end Op

/-- Whether the two words at an address are a jump to that address. -/
def Rom.haltsAt (r : Rom) (pc : Word) : Bool :=
  match r.code[pc.toNat]?, r.code[pc.toNat + 1]? with
  | some (.load target), some (.compute _ .zero (some .always)) => target == pc
  | _, _ => false

namespace Machine

/-- The machine before the first step, its memory full of zeros. -/
def initial : Machine := ⟨Vector.replicate _ 0, 0, 0, 0, .running, 0⟩

/-! ## Memory -/

def inRange (address : Word) : Bool := address.toNat < MemoryMap.memorySize

/-- The cell at an address, or zero where there is none. -/
def cell (m : Machine) (address : Word) : Word := m.memory[address.toNat]?.getD 0

def setCell (m : Machine) (address value : Word) : Machine :=
  { m with memory := m.memory.setIfInBounds address.toNat value }

def peek (m : Machine) (address : Word) : Except MachineFault Word :=
  if inRange address then .ok (m.cell address) else .error (.memoryOutOfRange address m.pc)

/-- The machine with the value stored, or as it was if there is no such cell. -/
def poke (m : Machine) (address value : Word) : Option MachineFault × Machine :=
  if inRange address then (none, m.setCell address value)
  else (some (.memoryOutOfRange address m.pc), m)

/-! ## One step -/

/-- The second input of the arithmetic unit. -/
def input (m : Machine) (comp : Comp) : Word :=
  match comp.input? with
  | some .m => m.cell m.a
  | _ => m.a

/-- Execute a word. Memory is addressed, and a jump is made, by `A` as it was before. -/
def perform (m : Machine) : Op → Machine
  | .load value => { m with a := value, pc := m.pc + 1 }
  | .compute dest comp jump =>
    let v := comp.eval m.d (m.input comp)
    { m with
      memory :=
        if dest.any Dest.writesM then m.memory.setIfInBounds m.a.toNat v else m.memory
      a := if dest.any Dest.writesA then v else m.a
      d := if dest.any Dest.writesD then v else m.d
      pc := if jump.any (Jump.isTaken v) then m.a else m.pc + 1 }

/-- Execute the word at the program counter, whether or not it begins a halt loop. -/
def execute (r : Rom) (m : Machine) : Option MachineFault × Machine :=
  match r.code[m.pc.toNat]? with
  | none => (some (.pcOutOfRange m.pc), m)
  | some op =>
    let m := { m with steps := m.steps + 1 }
    if op.usesMemory && !inRange m.a then (some (.memoryOutOfRange m.a m.pc), m)
    else (none, m.perform op)

def step (r : Rom) (m : Machine) : Option MachineFault × Machine :=
  if r.haltsAt m.pc then (none, { m with state := .halted }) else m.execute r

/-! ## Runs -/

/-- Step until the machine has halted, with `budget` steps left before the limit. -/
def runWithin (r : Rom) (limit : Nat) (budget : Nat) (m : Machine) :
    Except MachineFault Nat × Machine :=
  match m.state, budget with
  | .halted, _ => (.ok m.steps, m)
  | .running, 0 => (.error (.stepLimit limit), m)
  | .running, budget + 1 =>
    match m.step r with
    | (some fault, m) => (.error fault, m)
    | (none, m) => runWithin r limit budget m

/-- Step until the machine has halted, or has counted `limit` steps in all. The result is the
count. -/
def run (r : Rom) (limit : Nat) (m : Machine) : Except MachineFault Nat × Machine :=
  runWithin r limit (limit - m.steps) m

theorem run_of_halted {r : Rom} {limit : Nat} {m : Machine} (h : m.state = .halted) :
    m.run r limit = (.ok m.steps, m) := by
  rw [run, runWithin.eq_def, h]

theorem perform_steps (m : Machine) (op : Op) : (m.perform op).steps = m.steps := by
  cases op <;> rfl

theorem perform_state (m : Machine) (op : Op) : (m.perform op).state = m.state := by
  cases op <;> rfl

/-- A step that does not halt the machine and finds a word is counted. -/
theorem execute_steps {r : Rom} {m : Machine} {op : Op} (h : r.code[m.pc.toNat]? = some op) :
    (m.execute r).2.steps = m.steps + 1 := by
  simp only [execute, h]
  split
  · rfl
  · rw [perform_steps]

end Machine

end HackVM
