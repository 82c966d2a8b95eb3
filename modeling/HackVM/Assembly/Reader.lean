import HackVM.Assembly.Instruction
import HackVM.SourceLine
import HackVM.Symbol

/-!
# Reading assembly instructions

The reader takes one line. Blanks at its ends do not count, and inside a compute instruction
none around its fields. What it accepts and how it tells the forms apart:

* `// text` is a comment;
* `(name)` is a label;
* `@7` and `@name` load an address, a number if the operand begins with a digit;
* `dest=comp;jump` computes, and at least one of `dest=` and `;jump` is there.

Faults are looked for in a fixed order: of a compute instruction the destination is read
first, then the jump, and the computation last.
-/

namespace HackVM.Assembly

open Text

inductive Fault
  | unterminatedLabel
  | invalidLabelName
  | invalidNumber
  | addressTooLarge
  | invalidSymbol
  | unknownDestination
  | unknownComputation
  | unknownJump
  | noEffect
deriving DecidableEq, Repr

def Fault.message : Fault → String
  | unterminatedLabel => "unterminated label"
  | invalidLabelName => "invalid label name"
  | invalidNumber => "invalid numeric address"
  | addressTooLarge => "address exceeds 15 bits"
  | invalidSymbol => "invalid symbol"
  | unknownDestination => "unknown destination"
  | unknownComputation => "unknown computation"
  | unknownJump => "unknown jump condition"
  | noEffect => "compute instruction has no effect"

/-- A fault together with the text that has it. -/
structure ReadError where
  text : String
  fault : Fault
deriving DecidableEq, Repr

def ReadError.message (e : ReadError) : String :=
  "invalid instruction `" ++ e.text ++ "`: " ++ e.fault.message

/-! ## Fields -/

/-- The value found, or a fault of the text `s`. -/
def found {α : Type} (s : List Char) (fault : Fault) : Option α → Except ReadError α
  | some a => .ok a
  | none => .error ⟨String.ofList s, fault⟩

def Dest.read (s : List Char) : Except ReadError Dest := found s .unknownDestination (Dest.read? s)

def Comp.read (s : List Char) : Except ReadError Comp := found s .unknownComputation (Comp.read? s)

def Jump.read (s : List Char) : Except ReadError Jump := found s .unknownJump (Jump.read? s)

theorem found_eq_ok_iff {α : Type} {s : List Char} {fault : Fault} {o : Option α} {a : α} :
    found s fault o = .ok a ↔ o = some a := by
  cases o <;> simp [found]

/-- The destination in front of the first `=`, if there is one, and the rest of the line. -/
def readDestField (line : List Char) : Except ReadError (Option Dest × List Char) :=
  match cut? '=' line with
  | some (field, rest) => (Dest.read (trim field)).map fun t => (some t, rest)
  | none => .ok (none, line)

/-- The text in front of the first `;` and the jump behind it, if there is one. -/
def readJumpField (line : List Char) : Except ReadError (List Char × Option Jump) :=
  match cut? ';' line with
  | some (rest, field) => (Jump.read (trim field)).map fun j => (rest, some j)
  | none => .ok (line, none)

/-! ## Instructions -/

namespace Instruction

/-- The label instruction whose text after the opening bracket is `rest`. -/
def readLabel (line rest : List Char) : Except ReadError Instruction :=
  if rest.getLast? ≠ some ')' then .error ⟨String.ofList line, .unterminatedLabel⟩
  else if isSymbolText rest.dropLast then .ok (.label (String.ofList rest.dropLast))
  else .error ⟨String.ofList line, .invalidLabelName⟩

/-- The address instruction with this operand. -/
def readLoad (line operand : List Char) : Except ReadError Instruction :=
  if operand.head?.any Char.isDigit then
    match readNumber? operand with
    | none => .error ⟨String.ofList line, .invalidNumber⟩
    | some n =>
      if n ≤ maxAddress then .ok (.load (.value n))
      else .error ⟨String.ofList line, .addressTooLarge⟩
  else if isSymbolText operand then .ok (.load (.symbol (String.ofList operand)))
  else .error ⟨String.ofList line, .invalidSymbol⟩

def readCompute (line : List Char) : Except ReadError Instruction := do
  let (dest, rest) ← readDestField line
  let (field, jump) ← readJumpField rest
  if dest.isNone && jump.isNone then throw ⟨String.ofList line, .noEffect⟩
  let comp ← Comp.read (trim field)
  return .compute dest comp jump

/-- The instruction on a trimmed line. -/
def readTrimmed (line : List Char) : Except ReadError Instruction :=
  match line with
  | '/' :: '/' :: rest => .ok (.comment (String.ofList (trim rest)))
  | '(' :: rest => readLabel line rest
  | '@' :: operand => readLoad line operand
  | _ => readCompute line

def read (line : String) : Except ReadError Instruction := readTrimmed (trim line.toList)

end Instruction

end HackVM.Assembly
