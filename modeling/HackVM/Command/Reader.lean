import HackVM.Command
import HackVM.Symbol
import HackVM.Text.Split

/-!
# Reading commands

The first word of a line says which command it is, and the command says how many operands
follow. Faults are looked for in a fixed order: the number of operands, then each operand from
left to right, then what the operands mean together.

A rejected command either names an element that no segment has (`isSegmentFault`), or it is
malformed.
-/

namespace HackVM

open Text

/-- What an operand stands for. -/
inductive OperandRole
  | index | localCount | argumentCount | label | functionName
deriving DecidableEq, Repr

def OperandRole.phrase : OperandRole → String
  | index => "index"
  | localCount => "local count"
  | argumentCount => "argument count"
  | label => "label"
  | functionName => "function name"

inductive CommandError
  | empty
  | unknownCommand (word : String)
  | operandCount (keyword : String) (expected found : Nat)
  | notANumber (role : OperandRole) (word : String)
  | countTooLarge (role : OperandRole) (count : Nat)
  | invalidName (role : OperandRole) (word : String)
  | unknownSegment (word : String)
  | popConstant
  | indexOutOfRange (index : Nat) (segment : Segment)
deriving DecidableEq, Repr

namespace CommandError

def isSegmentFault : CommandError → Bool
  | unknownSegment _ | popConstant | indexOutOfRange .. => true
  | _ => false

def detail : CommandError → String
  | empty => "empty command"
  | unknownCommand word => "unknown command `" ++ word ++ "`"
  | operandCount keyword expected found =>
    "`" ++ keyword ++ "` expects " ++ decimal expected ++ " operand" ++
      (if expected = 1 then "" else "s") ++ ", found " ++ decimal found
  | notANumber role word =>
    role.phrase ++ " `" ++ word ++ "` is not a non-negative 16-bit integer"
  | countTooLarge role count =>
    role.phrase ++ " " ++ decimal count ++ " exceeds " ++ decimal maxAddress
  | invalidName role word => "invalid " ++ role.phrase ++ " `" ++ word ++ "`"
  | unknownSegment word => "unknown segment `" ++ word ++ "`"
  | popConstant => "cannot pop to constant"
  | indexOutOfRange index segment =>
    "index " ++ decimal index ++ " out of range for segment `" ++ segment.keyword ++
      "` (max " ++ decimal segment.maxIndex ++ ")"

def message (e : CommandError) : String :=
  (if e.isSegmentFault then "unsupported segment: " else "malformed command: ") ++ e.detail

end CommandError

/-! ## Operands -/

def Segment.read (word : String) : Except CommandError Segment :=
  match Segment.ofKeyword? word with
  | some s => .ok s
  | none => .error (.unknownSegment word)

def readNumber (role : OperandRole) (word : String) : Except CommandError Nat :=
  match readNumber? word.toList with
  | some n => .ok n
  | none => .error (.notANumber role word)

/-- A count becomes the operand of an address instruction, so it has fifteen bits. -/
def readCount (role : OperandRole) (word : String) : Except CommandError Nat := do
  let n ← readNumber role word
  if n ≤ maxAddress then return n else throw (.countTooLarge role n)

def readName (role : OperandRole) (word : String) : Except CommandError String :=
  if isSymbol word then .ok word else .error (.invalidName role word)

theorem Segment.read_eq_ok_iff {word : String} {s : Segment} :
    Segment.read word = .ok s ↔ word = s.keyword := by
  rw [← Segment.ofKeyword?_eq_some_iff, Segment.read]
  cases Segment.ofKeyword? word <;> simp

theorem readNumber_eq_ok_iff {role : OperandRole} {word : String} {n : Nat} :
    readNumber role word = .ok n ↔ readNumber? word.toList = some n := by
  rw [readNumber]
  cases readNumber? word.toList <;> simp

theorem readName_eq_ok_iff {role : OperandRole} {word name : String} :
    readName role word = .ok name ↔ word = name ∧ isSymbol name = true := by
  by_cases h : isSymbol word = true
  · simp only [readName, h, if_true, Except.ok.injEq]
    constructor
    · rintro rfl
      exact ⟨rfl, h⟩
    · exact And.left
  · simp only [readName, h]
    constructor
    · simp
    · rintro ⟨rfl, h'⟩
      exact absurd h' h

/-! ## Commands -/

namespace Command

/-- An index within the bounds of its segment. -/
def checkIndex (segment : Segment) (index : Nat) : Except CommandError Unit :=
  if index ≤ segment.maxIndex then .ok () else .error (.indexOutOfRange index segment)

def readPush (segment index : String) : Except CommandError Command := do
  let s ← Segment.read segment
  let i ← readNumber .index index
  checkIndex s i
  return .push s i

def readPop (segment index : String) : Except CommandError Command := do
  let s ← Segment.read segment
  let i ← readNumber .index index
  if s = .constant then throw .popConstant
  checkIndex s i
  return .pop s i

def readFunction (name locals : String) : Except CommandError Command := do
  let f ← readName .functionName name
  return .function f (← readCount .localCount locals)

def readCall (name args : String) : Except CommandError Command := do
  let f ← readName .functionName name
  return .call f (← readCount .argumentCount args)

/-- Apply the reader of a command to its operands, if it is given as many as it takes. -/
def withNone (keyword : String) (operands : List String) (c : Command) :
    Except CommandError Command :=
  match operands with
  | [] => .ok c
  | _ => .error (.operandCount keyword 0 operands.length)

@[inherit_doc withNone]
def withOne (keyword : String) (operands : List String)
    (reader : String → Except CommandError Command) : Except CommandError Command :=
  match operands with
  | [a] => reader a
  | _ => .error (.operandCount keyword 1 operands.length)

@[inherit_doc withNone]
def withTwo (keyword : String) (operands : List String)
    (reader : String → String → Except CommandError Command) : Except CommandError Command :=
  match operands with
  | [a, b] => reader a b
  | _ => .error (.operandCount keyword 2 operands.length)

/-- The command with this first word that is not an arithmetic one. -/
def ofKeyword (keyword : String) (operands : List String) : Except CommandError Command :=
  match keyword with
  | "push" => withTwo keyword operands readPush
  | "pop" => withTwo keyword operands readPop
  | "label" => withOne keyword operands fun a => Command.label <$> readName .label a
  | "goto" => withOne keyword operands fun a => Command.goto <$> readName .label a
  | "if-goto" => withOne keyword operands fun a => Command.ifGoto <$> readName .label a
  | "function" => withTwo keyword operands readFunction
  | "call" => withTwo keyword operands readCall
  | "return" => withNone keyword operands .ret
  | _ => .error (.unknownCommand keyword)

def ofWords : List String → Except CommandError Command
  | [] => .error .empty
  | keyword :: operands =>
    match ArithmeticOp.ofKeyword? keyword with
    | some op => withNone keyword operands (.arithmetic op)
    | none => ofKeyword keyword operands

def read (line : String) : Except CommandError Command :=
  ofWords ((Text.words line.toList).map String.ofList)

end Command

end HackVM
