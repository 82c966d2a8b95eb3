import HackVM.Assembly.Sequence
import HackVM.Command.Reader
import HackVM.Labels

/-!
# Expansion of commands

Each command becomes a fixed sequence of instructions. What the sequence depends on besides
the command: the unit names the static elements, the scope qualifies the labels, and the
numbering gives a call or comparison labels of its own.

| command | instructions |
|---|---|
| `push`, `pop` | by way of `D`; an element of a frame segment by way of its computed address |
| arithmetic | pop the operands, compute, push the result |
| `label`, `goto`, `if-goto` | the qualified label, a jump to it, a jump to it on a popped nonzero |
| `function` | the entry label, one pushed zero for each local |
| `call` | save return address and pointers, set `ARG` and `LCL`, jump, declare the return label |
| `return` | return value to the caller's stack, restore the pointers, jump to the return address |
-/

namespace HackVM

open Assembly Sequence

/-- Where a command stands. -/
structure Place where
  unit : String
  scope : Scope
deriving DecidableEq, Repr

namespace Expansion

/-! ## Segments -/

/-- The two elements of the segment `pointer` are registers. -/
def pointerRegister (index : Nat) : Register := if index = 0 then .this else .that

def push (unit : String) (segment : Segment) (index : Nat) : List Instruction :=
  match segment with
  | .constant => pushValue index
  | .locals => pushElement .lcl index
  | .arguments => pushElement .arg index
  | .this => pushElement .this index
  | .that => pushElement .that index
  | .temp => pushCell (MemoryMap.tempBase + index)
  | .pointer => pushCell (pointerRegister index)
  | .static => pushCell (.symbol (staticSymbol unit index))

def pop (unit : String) (segment : Segment) (index : Nat) :
    Except CommandError (List Instruction) :=
  match segment with
  | .constant => .error .popConstant
  | .locals => .ok (popElement .lcl index)
  | .arguments => .ok (popElement .arg index)
  | .this => .ok (popElement .this index)
  | .that => .ok (popElement .that index)
  | .temp => .ok (popCell (MemoryMap.tempBase + index))
  | .pointer => .ok (popCell (pointerRegister index))
  | .static => .ok (popCell (.symbol (staticSymbol unit index)))

/-! ## Arithmetic -/

/-- Pop `y` into `D` and `x` into `A`, combine them, push `D`. -/
def binary (combine : Instruction) : List Instruction := popD ++ popA ++ [combine] ++ pushD

def unary (transform : Instruction) : List Instruction := popD ++ [transform] ++ pushD

/-- The truth value of the condition on the difference of the operands. -/
def comparison (n : Numbering) (jump : Jump) : List Instruction :=
  popD ++ popA ++ [subFromA] ++ testD jump n.trueLabel n.endLabel ++ pushD

def arithmetic (n : Numbering) : ArithmeticOp → List Instruction
  | .add => binary addA
  | .sub => binary subFromA
  | .and => binary andA
  | .or => binary orA
  | .neg => unary negD
  | .not => unary notD
  | .eq => comparison n .eq
  | .gt => comparison n .gt
  | .lt => comparison n .lt

/-! ## Functions -/

def function (name : String) (locals : Nat) : List Instruction :=
  .label name :: (List.replicate locals (pushValue (0 : Nat))).flatten

def call (n : Numbering) (name : String) (args : Nat) : List Instruction :=
  pushValue (.symbol (n.returnLabel name)) ++
    Register.saved.flatMap (fun r => pushCell r.address) ++
    -- `ARG := SP - frameHeader - args`
    fetchD Register.sp ++ setA MemoryMap.frameHeader ++ [subA] ++ setA args ++ [subA] ++
    storeD Register.arg ++
    -- `LCL := SP`
    move Register.sp Register.lcl ++
    jumpTo name ++ [.label (n.returnLabel name)]

/-- The return address and the frame base are put aside first: the return value may overwrite
the saved return address, and restoring the pointers loses the frame. -/
def ret : List Instruction :=
  -- the return address, `frameHeader` words below `LCL`
  fetchD Register.lcl ++ setA MemoryMap.frameHeader ++ [subA] ++
    storeD Register.returnAddress ++ followD Register.returnAddress ++
    storeD Register.returnAddress ++
    -- the return value, in place of the first argument
    move Register.arg Register.frameBase ++ popD ++ storeDThrough Register.frameBase ++
    -- the saved pointers, just below `LCL`
    move Register.lcl Register.sp ++ Register.saved.reverse.flatMap (fun r => popCell r.address) ++
    -- `SP` just above the return value
    move Register.frameBase Register.sp ++ increment Register.sp ++
    jumpThrough Register.returnAddress

/-! ## Ends of a program -/

/-- Set up the stack and call the entry point. -/
def bootstrap (n : Numbering) : List Instruction :=
  put MemoryMap.stackBase Register.sp ++ call n MemoryMap.entryPoint 0

/-- A loop without an exit, so that control does not run past the end of the program. -/
def haltLoop : List Instruction := .label haltLabel :: jumpTo haltLabel

end Expansion

/-! ## Commands -/

/-- The instructions of a command; only popping to a constant has none. -/
def Command.expand (p : Place) (n : Numbering) : Command → Except CommandError (List Instruction)
  | push segment index => .ok (Expansion.push p.unit segment index)
  | pop segment index => Expansion.pop p.unit segment index
  | arithmetic op => .ok (Expansion.arithmetic n op)
  | label name => .ok [.label (p.scope.qualify name)]
  | goto name => .ok (jumpTo (p.scope.qualify name))
  | ifGoto name => .ok (popD ++ jumpUnlessZero (p.scope.qualify name))
  | function name locals => .ok (Expansion.function name locals)
  | call name args => .ok (Expansion.call n name args)
  | ret => .ok Expansion.ret

namespace Expansion

theorem pop_eq_error_iff {unit : String} {segment : Segment} {index : Nat} {e : CommandError} :
    pop unit segment index = .error e ↔ segment = .constant ∧ e = .popConstant := by
  cases segment <;> simp [pop, eq_comm]

end Expansion

/-- A command fails to expand only if it pops to a constant. -/
theorem Command.expand_eq_error_iff {p : Place} {n : Numbering} {c : Command} {e : CommandError} :
    c.expand p n = .error e ↔ (∃ i, c = .pop .constant i) ∧ e = .popConstant := by
  cases c <;> simp [expand, Expansion.pop_eq_error_iff]

end HackVM
