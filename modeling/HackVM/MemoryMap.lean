import HackVM.Assembly.Instruction

/-!
# Memory map

Cells 0 to 4 of memory hold the stack pointer and the bases of the current frame, 5 to 12 the
segment `temp`, 13 to 15 scratch values of a single command. Variables are placed from cell 16
on and the stack from cell 256 on.

A call saves five words between the arguments and the locals of the callee: the return
address, then the four pointers of the caller.

    ARG ->  argument 0 .. n-1
            return address
            saved LCL, ARG, THIS, THAT
    LCL ->  local 0 .. k-1
    SP  ->
-/

namespace HackVM

open Assembly

/-- The cells of memory that have a name and a use. -/
inductive Register
  | sp | lcl | arg | this | that | r13 | r14 | r15
deriving DecidableEq, Repr

namespace Register

def all : List Register := [sp, lcl, arg, this, that, r13, r14, r15]

def name : Register → String
  | sp => "SP"
  | lcl => "LCL"
  | arg => "ARG"
  | this => "THIS"
  | that => "THAT"
  | r13 => "R13"
  | r14 => "R14"
  | r15 => "R15"

def cell : Register → Nat
  | sp => 0
  | lcl => 1
  | arg => 2
  | this => 3
  | that => 4
  | r13 => 13
  | r14 => 14
  | r15 => 15

/-- The scratch cell for the address of a segment element. -/
def element : Register := r13

/-- The scratch cell for the callee's `ARG` while its frame is taken down. -/
def frameBase : Register := r14

/-- The scratch cell for the return address while a frame is taken down. -/
def returnAddress : Register := r15

/-- The pointers that a call saves, in the order in which they are pushed. -/
def saved : List Register := [lcl, arg, this, that]

/-- An instruction addresses a register by its name. -/
def address (r : Register) : Address := .symbol r.name

instance : Coe Register Address := ⟨address⟩

end Register

namespace MemoryMap

def tempBase : Nat := 5

def tempSize : Nat := 8

def firstVariable : Nat := 16

def stackBase : Nat := 256

/-- Words that a call saves between the arguments and the locals. -/
def frameHeader : Nat := 5

/-- Words of memory: the addresses have fifteen bits. -/
def memorySize : Nat := 32768

/-- The function that a program with a bootstrap begins with. -/
def entryPoint : String := "Sys.init"

/-- The symbols that have a value without being declared. -/
def predefined : List (String × Nat) :=
  ([.sp, .lcl, .arg, .this, .that] : List Register).map (fun r => (r.name, r.cell)) ++
    (List.range 16).map (fun n => ("R" ++ Text.decimal n, n)) ++
    [("SCREEN", 16384), ("KBD", 24576)]

/-- The predefined value of a register's name is its cell. -/
theorem lookup_predefined_name (r : Register) : predefined.lookup r.name = some r.cell := by
  cases r <;> decide

end MemoryMap

end HackVM
