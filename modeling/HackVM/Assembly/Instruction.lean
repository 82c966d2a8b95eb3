import HackVM.Assembly.Compute
import HackVM.Text.Decimal

/-!
# Assembly instructions

An address instruction loads a number or the value of a symbol into `A`; a compute
instruction lets the arithmetic unit work. Both occupy one word of program memory. A label
names the address of the instruction after it, and a comment means nothing.

An instruction is written on one line; a program is written one instruction a line.
-/

namespace HackVM.Assembly

inductive Address
  | value (n : Nat)
  | symbol (name : String)
deriving DecidableEq, Repr

def Address.text : Address → String
  | value n => Text.decimal n
  | symbol name => name

inductive Instruction
  | load (address : Address)
  | compute (dest : Option Dest) (comp : Comp) (jump : Option Jump)
  | label (name : String)
  | comment (text : String)
deriving DecidableEq, Repr

namespace Instruction

/-- `dest=comp`. -/
def assign (dest : Dest) (comp : Comp) : Instruction := compute (some dest) comp none

/-- `comp;jump`. -/
def branch (comp : Comp) (jump : Jump) : Instruction := compute none comp (some jump)

/-- Whether the instruction occupies a word of program memory. -/
def isExecutable : Instruction → Bool
  | load _ | compute .. => true
  | label _ | comment _ => false

/-- The name that a label instruction declares. -/
def declared? : Instruction → Option String
  | label name => some name
  | _ => none

/-- The names that are declared, in order. -/
def labels (code : List Instruction) : List String := code.filterMap declared?

theorem labels_append (p q : List Instruction) : labels (p ++ q) = labels p ++ labels q :=
  List.filterMap_append

/-! ## Written form -/

def destText : Option Dest → String
  | some t => String.ofList (t.letters ++ ['='])
  | none => ""

def jumpText : Option Jump → String
  | some j => String.ofList (';' :: j.text)
  | none => ""

def text : Instruction → String
  | load address => "@" ++ address.text
  | compute dest comp jump => destText dest ++ String.ofList comp.text ++ jumpText jump
  | label name => "(" ++ name ++ ")"
  | comment text => "// " ++ text

/-- One instruction a line, each line ended by a line feed. -/
def render (code : List Instruction) : String := String.join (code.map fun i => i.text ++ "\n")

theorem toList_render (code : List Instruction) :
    (render code).toList = code.flatMap fun i => i.text.toList ++ ['\n'] := by
  simp [render, String.toList_join, List.flatMap_map]

theorem render_nil : render [] = "" := rfl

end Instruction

end HackVM.Assembly
