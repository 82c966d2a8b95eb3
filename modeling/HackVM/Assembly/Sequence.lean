import HackVM.MemoryMap

/-!
# Instruction sequences

Each definition is the sequence of instructions for one small operation on `A`, `D` and
memory. Nothing here has a state: labels are given by the caller. In the comments `[n]` is the
cell with address `n`.
-/

namespace HackVM.Assembly

open Instruction

/-- From here on a number may stand for the address with that value. -/
instance : Coe Nat Address := ⟨Address.value⟩

namespace Sequence

/-! ## Loading and storing -/

/-- `A := a`. -/
def setA (a : Address) : List Instruction := [load a]

/-- `D := a`. -/
def setD (a : Address) : List Instruction := [load a, assign .d (.y .a)]

/-- `D := [a]`. -/
def fetchD (a : Address) : List Instruction := [load a, assign .d (.y .m)]

/-- `A := [p]`. -/
def followA (p : Address) : List Instruction := [load p, assign .a (.y .m)]

/-- `D := [[p]]`. -/
def followD (p : Address) : List Instruction := followA p ++ [assign .d (.y .m)]

/-- `[a] := D`. -/
def storeD (a : Address) : List Instruction := [load a, assign .m .x]

/-- `[[p]] := D`. -/
def storeDThrough (p : Address) : List Instruction := followA p ++ [assign .m .x]

/-- `[a] := v`. -/
def put (v a : Address) : List Instruction := setD v ++ storeD a

/-- `[dst] := [src]`. -/
def move (src dst : Address) : List Instruction := fetchD src ++ storeD dst

/-- `[a] := [a] + 1`. -/
def increment (a : Address) : List Instruction := [load a, assign .m (.incY .m)]

/-- `[a] := [a] - 1`. -/
def decrement (a : Address) : List Instruction := [load a, assign .m (.decY .m)]

/-! ## Arithmetic on `D` and `A` -/

/-- `D := D + A`. -/
def addA : Instruction := assign .d (.add .a)

/-- `D := D - A`. -/
def subA : Instruction := assign .d (.sub .a)

/-- `D := A - D`. -/
def subFromA : Instruction := assign .d (.subFrom .a)

/-- `D := -D`. -/
def negD : Instruction := assign .d .negX

/-- `D := D & A`. -/
def andA : Instruction := assign .d (.and .a)

/-- `D := D | A`. -/
def orA : Instruction := assign .d (.or .a)

/-- `D := !D`. -/
def notD : Instruction := assign .d .notX

/-! ## The stack -/

def pushD : List Instruction := storeDThrough Register.sp ++ increment Register.sp

def popD : List Instruction := decrement Register.sp ++ followD Register.sp

def popA : List Instruction :=
  decrement Register.sp ++ followA Register.sp ++ [assign .a (.y .m)]

/-- Push `v`. -/
def pushValue (v : Address) : List Instruction := setD v ++ pushD

/-- Push `[a]`. -/
def pushCell (a : Address) : List Instruction := fetchD a ++ pushD

/-- Pop into `[a]`. -/
def popCell (a : Address) : List Instruction := popD ++ storeD a

/-- `[R13] := [base] + index`. -/
def locate (base : Register) (index : Nat) : List Instruction :=
  fetchD base ++ setA index ++ [addA] ++ storeD Register.element

/-- Push `[[base] + index]`. -/
def pushElement (base : Register) (index : Nat) : List Instruction :=
  locate base index ++ followD Register.element ++ pushD

/-- Pop into `[[base] + index]`. The address is computed first, so `D` is free for the value. -/
def popElement (base : Register) (index : Nat) : List Instruction :=
  locate base index ++ popD ++ storeDThrough Register.element

/-! ## Jumps -/

/-- Make `D` a truth value: -1 if it meets the condition of the jump, and 0 otherwise. -/
def testD (jump : Jump) (onTrue atEnd : String) : List Instruction :=
  [load (.symbol onTrue), branch .x jump, assign .d .zero, load (.symbol atEnd),
    branch .zero .always, label onTrue, assign .d .minusOne, label atEnd]

def jumpTo (target : String) : List Instruction := [load (.symbol target), branch .zero .always]

def jumpUnlessZero (target : String) : List Instruction := [load (.symbol target), branch .x .ne]

/-- Jump to the address in `[p]`. -/
def jumpThrough (p : Address) : List Instruction := followA p ++ [branch .zero .always]

end Sequence

end HackVM.Assembly
