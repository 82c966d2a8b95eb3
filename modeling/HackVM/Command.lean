import HackVM.MemoryMap

/-!
# Commands of the stack machine

A command moves a value between the stack and an element of a memory segment, computes on the
top of the stack, or directs control. It is written as its words with one space between them.
-/

namespace HackVM

/-! ## Segments -/

inductive Segment
  | constant | locals | arguments | this | that | temp | pointer | static
deriving DecidableEq, Repr

namespace Segment

def all : List Segment := [constant, locals, arguments, this, that, temp, pointer, static]

def keyword : Segment → String
  | constant => "constant"
  | locals => "local"
  | arguments => "argument"
  | this => "this"
  | that => "that"
  | temp => "temp"
  | pointer => "pointer"
  | static => "static"

def ofKeyword? (word : String) : Option Segment := all.find? fun s => s.keyword == word

/-- The largest index of an element. -/
def maxIndex : Segment → Nat
  | temp => MemoryMap.tempSize - 1
  | pointer => 1
  | _ => maxAddress

theorem mem_all (s : Segment) : s ∈ all := by cases s <;> decide

theorem ofKeyword?_keyword (s : Segment) : ofKeyword? s.keyword = some s := by cases s <;> rfl

theorem ofKeyword?_eq_some_iff {word : String} {s : Segment} :
    ofKeyword? word = some s ↔ word = s.keyword := by
  constructor
  · intro h
    exact (eq_of_beq (List.find?_some (p := fun s : Segment => s.keyword == word) h)).symm
  · rintro rfl
    exact ofKeyword?_keyword s

end Segment

/-! ## Arithmetic -/

inductive ArithmeticOp
  | add | sub | neg | eq | gt | lt | and | or | not
deriving DecidableEq, Repr

namespace ArithmeticOp

def all : List ArithmeticOp := [add, sub, neg, eq, gt, lt, and, or, not]

def keyword : ArithmeticOp → String
  | add => "add"
  | sub => "sub"
  | neg => "neg"
  | eq => "eq"
  | gt => "gt"
  | lt => "lt"
  | and => "and"
  | or => "or"
  | not => "not"

def ofKeyword? (word : String) : Option ArithmeticOp := all.find? fun op => op.keyword == word

/-- The condition on the difference of the operands, for an operation that compares them. -/
def comparison? : ArithmeticOp → Option Assembly.Jump
  | eq => some .eq
  | gt => some .gt
  | lt => some .lt
  | _ => none

theorem mem_all (op : ArithmeticOp) : op ∈ all := by cases op <;> decide

theorem ofKeyword?_keyword (op : ArithmeticOp) : ofKeyword? op.keyword = some op := by
  cases op <;> rfl

theorem ofKeyword?_eq_some_iff {word : String} {op : ArithmeticOp} :
    ofKeyword? word = some op ↔ word = op.keyword := by
  constructor
  · intro h
    exact (eq_of_beq (List.find?_some (p := fun o : ArithmeticOp => o.keyword == word) h)).symm
  · rintro rfl
    exact ofKeyword?_keyword op

end ArithmeticOp

/-! ## Commands -/

inductive Command
  | push (segment : Segment) (index : Nat)
  | pop (segment : Segment) (index : Nat)
  | arithmetic (op : ArithmeticOp)
  | label (name : String)
  | goto (name : String)
  | ifGoto (name : String)
  | function (name : String) (locals : Nat)
  | call (name : String) (args : Nat)
  | ret
deriving DecidableEq, Repr

namespace Command

open Text

def words : Command → List String
  | push segment index => ["push", segment.keyword, decimal index]
  | pop segment index => ["pop", segment.keyword, decimal index]
  | arithmetic op => [op.keyword]
  | label name => ["label", name]
  | goto name => ["goto", name]
  | ifGoto name => ["if-goto", name]
  | function name locals => ["function", name, decimal locals]
  | call name args => ["call", name, decimal args]
  | ret => ["return"]

def text (c : Command) : String := String.intercalate " " c.words

/-- Whether the command is a call, which needs a return label. -/
def isCall : Command → Bool
  | call .. => true
  | _ => false

/-- Whether the command compares, which needs a pair of labels. -/
def isComparison : Command → Bool
  | arithmetic op => op.comparison?.isSome
  | _ => false

end Command

end HackVM
