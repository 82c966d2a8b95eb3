import HackVM.Proofs.Layout
import HackVM.Proofs.Memory

/-!
# The stack machine

What the commands mean, told without instructions. A state is memory and the address of the
piece that comes next; a step carries out the whole piece. The stack pointer and the bases of
the frame are cells 0 to 4 of memory. A step also says what it leaves in the scratch cells 13
to 15.

| command | step |
|---|---|
| `push constant` | the number on the stack |
| `push` an element of a frame segment | its address into cell 13, its value on the stack |
| `push` of another segment | the value of the cell on the stack |
| `pop` | the same, from the stack into the cell; the cell is written last |
| arithmetic | the operands off the stack, the result on it |
| `function` | a zero on the stack for each local |
| `call` | return address and pointers on the stack, then `ARG` and `LCL` |
| `return` | return address and `ARG` put aside, the value in place, the pointers back |

A step has a guard: the stack stays between the fixed cells and the end of memory, and so do
the cells that are addressed. Where the guard fails there is no step.
-/

namespace HackVM

open Assembly

/-! ## Operands -/

/-- Where a push takes its value from, or a pop puts it. -/
inductive Operand
  | constant (value : Word)
  | cell (address : Word)
  /-- An element of a frame segment; its address goes through cell 13. -/
  | element (address : Word)

namespace Operand

/-- The operand that a segment and an index name; `static` gives statics their cells. -/
def of (static : String → Word) (unit : String) (M : Memory) (index : Nat) : Segment → Operand
  | .constant => constant (BitVec.ofNat 16 index)
  | .locals => element (M.read 1 + BitVec.ofNat 16 index)
  | .arguments => element (M.read 2 + BitVec.ofNat 16 index)
  | .this => element (M.read 3 + BitVec.ofNat 16 index)
  | .that => element (M.read 4 + BitVec.ofNat 16 index)
  | .temp => cell (BitVec.ofNat 16 (5 + index))
  | .pointer => cell (if index = 0 then 3 else 4)
  | .static => cell (static (staticSymbol unit index))

def push (M : Memory) : Operand → Option Memory
  | constant v => some (M.push v)
  | cell a => if a.toNat ≤ maxAddress then some (M.push (M.read a)) else none
  | element a =>
    if a.toNat ≤ maxAddress ∧ a ≠ 13 then some ((M.write 13 a).push (M.read a)) else none

/-- The operand is written after the stack pointer. -/
def pop (M : Memory) : Operand → Option Memory
  | constant _ => none
  | cell a => if a.toNat ≤ maxAddress then some (M.drop.write a M.top) else none
  | element a =>
    if a.toNat ≤ maxAddress then some ((M.write 13 a).drop.write a M.top) else none

end Operand

/-! ## Arithmetic -/

/-- Truth is minus one, all bits set. -/
def truth (b : Bool) : Word := if b then -1 else 0

namespace ArithmeticOp

/-- The result for the operand on top of the stack and the one below it. Operands are compared
by the sign of their difference, as a word. -/
def result (below top : Word) : ArithmeticOp → Word
  | add => below + top
  | sub => below - top
  | neg => -top
  | eq => truth (below - top == 0)
  | gt => truth (0 < (below - top).toInt)
  | lt => truth ((below - top).toInt < 0)
  | and => below &&& top
  | or => below ||| top
  | not => ~~~top

def arity : ArithmeticOp → Nat
  | neg | not => 1
  | _ => 2

/-- The operands off the stack, the result on it. -/
def apply (M : Memory) (op : ArithmeticOp) : Memory :=
  if op.arity = 1 then M.drop.push (op.result 0 M.top)
  else M.drop.drop.push (op.result M.drop.top M.top)

end ArithmeticOp

/-! ## Frames -/

namespace Memory

/-- Zeros for the locals of a function. -/
def pushZeros (M : Memory) : Nat → Memory
  | 0 => M
  | n + 1 => (M.push 0).pushZeros n

/-- The frame of a call: what it saves, then the new `ARG` and `LCL`. -/
def openFrame (M : Memory) (returnAddress : Word) (args : Nat) : Memory :=
  let M := M.push returnAddress
  let M := M.push (M.read 1)
  let M := M.push (M.read 2)
  let M := M.push (M.read 3)
  let M := M.push (M.read 4)
  let M := M.write 2 (M.sp - 5 - BitVec.ofNat 16 args)
  M.write 1 M.sp

/-- What a return does: cell 15 gets the return address and cell 14 `ARG`, the return value
goes where `ARG` points, the pointers come back from below `LCL`, and the stack ends above the
return value. -/
def closeFrame (M : Memory) : Memory :=
  let frame := M.read 1
  let value := M.top
  let M := M.write 15 (M.read (frame - 5))
  let M := M.write 14 (M.read 2)
  let M := M.write (M.read 14) value
  let M := M.write 4 (M.read (frame - 1))
  let M := M.write 3 (M.read (frame - 2))
  let M := M.write 2 (M.read (frame - 3))
  let M := M.write 1 (M.read (frame - 4))
  M.write 0 (M.read 14 + 1)

/-- The frame that a return takes down lies clear of the fixed cells, and so does the place of
the return value. -/
def HasFrame (M : Memory) : Prop :=
  21 ≤ (M.read 1).toNat ∧ (M.read 1).toNat ≤ 32768 ∧
    16 ≤ (M.read 2).toNat ∧ (M.read 2).toNat ≤ maxAddress

instance (M : Memory) : Decidable M.HasFrame := inferInstanceAs (Decidable (_ ∧ _))

end Memory

/-! ## Steps -/

namespace Piece

/-- Whether the piece is the label in a scope of that name. -/
def isLabel (scope label : String) : Piece → Bool
  | .command s _ => s.command == .label label && s.place.scope.name == scope
  | _ => false

/-- Whether the piece is the declaration of the function. -/
def isFunction (name : String) : Piece → Bool
  | .command s _ =>
    match s.command with
    | .function f _ => f == name
    | _ => false
  | _ => false

end Piece

structure StackState where
  memory : Memory
  /-- The address of the piece that comes next. -/
  next : Word

/-- A program as the stack machine sees it. -/
structure StackMachine where
  pieces : List Piece
  /-- The cells of the statics. -/
  static : String → Word

namespace StackMachine

variable (S : StackMachine)

/-- The address of a label. -/
def target (scope label : String) : Nat := positionOf S.pieces (Piece.isLabel scope label)

/-- The address of a function. -/
def entry (name : String) : Nat := positionOf S.pieces (Piece.isFunction name)

/-- Call a function; control comes back to the word at `back`. -/
def call (M : Memory) (back : Nat) (name : String) (args : Nat) : Option StackState :=
  if M.HasRoom 5 then
    some ⟨M.openFrame (BitVec.ofNat 16 back) args, BitVec.ofNat 16 (S.entry name)⟩
  else none

/-- Carry out a command at a site; the next piece in order begins at `back`. -/
def perform (M : Memory) (back : Nat) (s : Site) : Option StackState :=
  match s.command with
  | .push segment index =>
    if M.HasRoom 1 then
      ((Operand.of S.static s.place.unit M index segment).push M).map (⟨·, BitVec.ofNat 16 back⟩)
    else none
  | .pop segment index =>
    if M.HasValues 1 then
      ((Operand.of S.static s.place.unit M index segment).pop M).map (⟨·, BitVec.ofNat 16 back⟩)
    else none
  | .arithmetic op =>
    if M.HasValues op.arity then some ⟨op.apply M, BitVec.ofNat 16 back⟩ else none
  | .label _ => some ⟨M, BitVec.ofNat 16 back⟩
  | .goto label => some ⟨M, BitVec.ofNat 16 (S.target s.place.scope.name label)⟩
  | .ifGoto label =>
    if M.HasValues 1 then
      some ⟨M.drop, BitVec.ofNat 16
        (if M.top = 0 then back else S.target s.place.scope.name label)⟩
    else none
  | .function _ locals =>
    if M.HasRoom locals then some ⟨M.pushZeros locals, BitVec.ofNat 16 back⟩ else none
  | .call name args => S.call M back name args
  | .ret =>
    if M.HasValues 1 ∧ M.HasFrame then some ⟨M.closeFrame, M.closeFrame.read 15⟩ else none

/-- Carry out the piece that comes next. There is no step where no piece begins, and where the
guard of the piece fails. -/
def step (s : StackState) : Option StackState :=
  match pieceAt? S.pieces s.next.toNat with
  | none => none
  | some .bootstrap =>
    S.call (s.memory.write 0 256) (s.next.toNat + Piece.bootstrap.size) MemoryMap.entryPoint 0
  | some .halt => some s
  | some (.command site n) =>
    S.perform s.memory (s.next.toNat + (Piece.command site n).size) site

/-- Carry out `k` pieces. -/
def steps : Nat → StackState → Option StackState
  | 0, s => some s
  | k + 1, s => (S.step s).bind (steps k)

/-- Whether the next piece only jumps to itself: the halt loop, or such a `goto`. -/
def rests (s : StackState) : Bool :=
  match pieceAt? S.pieces s.next.toNat with
  | some .halt => true
  | some (.command site _) =>
    match site.command with
    | .goto label => S.target site.place.scope.name label == s.next.toNat
    | _ => false
  | _ => false

section

variable {S} {M : Memory} {s : StackState} {site : Site} {n : Numbering} {back args : Nat}
  {name : String} {t : StackState}

theorem step_command (h : pieceAt? S.pieces s.next.toNat = some (.command site n)) :
    S.step s = S.perform s.memory (s.next.toNat + (Piece.command site n).size) site := by
  rw [step, h]

theorem eq_of_call (h : S.call M back name args = some t) :
    M.HasRoom 5 ∧
      t = ⟨M.openFrame (BitVec.ofNat 16 back) args, BitVec.ofNat 16 (S.entry name)⟩ := by
  rw [call] at h
  split at h
  · rename_i hroom
    exact ⟨hroom, (Option.some.inj h).symm⟩
  · cases h

theorem perform_call (hc : site.command = .call name args) :
    S.perform M back site = S.call M back name args := by
  rw [perform, hc]

/-- A command goes to the next piece, to the target of a jump, to a function, or returns. -/
theorem next_of_perform (h : S.perform M back site = some t) :
    t.next = BitVec.ofNat 16 back ∨
      (∃ label, (site.command = .goto label ∨ site.command = .ifGoto label) ∧
        t.next = BitVec.ofNat 16 (S.target site.place.scope.name label)) ∨
      (∃ name args, site.command = .call name args ∧ t.next = BitVec.ofNat 16 (S.entry name)) ∨
      site.command = .ret := by
  rw [perform] at h
  split at h
  · split at h
    · obtain ⟨M', -, rfl⟩ := Option.map_eq_some_iff.1 h
      exact .inl rfl
    · cases h
  · split at h
    · obtain ⟨M', -, rfl⟩ := Option.map_eq_some_iff.1 h
      exact .inl rfl
    · cases h
  · split at h
    · obtain rfl := Option.some.inj h
      exact .inl rfl
    · cases h
  · obtain rfl := Option.some.inj h
    exact .inl rfl
  · rename_i label hc
    obtain rfl := Option.some.inj h
    exact .inr (.inl ⟨label, .inl hc, rfl⟩)
  · rename_i label hc
    split at h
    · obtain rfl := Option.some.inj h
      by_cases hz : M.top = 0
      · left
        rw [if_pos hz]
      · right
        left
        refine ⟨label, .inr hc, ?_⟩
        rw [if_neg hz]
    · cases h
  · split at h
    · obtain rfl := Option.some.inj h
      exact .inl rfl
    · cases h
  · rename_i name args hc
    obtain ⟨-, rfl⟩ := eq_of_call h
    exact .inr (.inr (.inl ⟨name, args, hc, rfl⟩))
  · rename_i hc
    exact .inr (.inr (.inr hc))

theorem perform_ret (hc : site.command = .ret) :
    S.perform M back site =
      if M.HasValues 1 ∧ M.HasFrame then some ⟨M.closeFrame, M.closeFrame.read 15⟩ else none := by
  rw [perform, hc]

end

theorem steps_succ (k : Nat) (s : StackState) :
    S.steps (k + 1) s = (S.steps k s).bind S.step := by
  induction k generalizing s with
  | zero =>
    rw [steps, steps, Option.bind_some]
    exact Option.bind_fun_some (S.step s)
  | succ k ih =>
    rw [steps, steps, Option.bind_assoc]
    exact congrArg (Option.bind (S.step s)) (funext ih)

/-- A state at rest stays as it is. -/
theorem step_of_rests {s : StackState} (h : S.rests s = true) : S.step s = some s := by
  rw [rests] at h
  split at h
  · rename_i hp
    rw [step, hp]
  · rename_i site n hp
    split at h
    · rename_i label hc
      rw [step, hp]
      show S.perform s.memory _ site = some s
      rw [perform, hc]
      show some (⟨s.memory, BitVec.ofNat 16 (S.target site.place.scope.name label)⟩ : StackState) =
        some s
      rw [eq_of_beq h, BitVec.ofNat_toNat, BitVec.setWidth_eq]
    · cases h
  · cases h

end StackMachine

end HackVM
