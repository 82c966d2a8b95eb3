import HackVM.Command

/-!
# Invented names

The labels of a program live in one name space. A label command is qualified by the scope it
stands in, a static element by its unit, and the labels that an expansion declares for itself
carry numbers.

A numbering says how many calls and comparisons precede a place in the program; the next one
takes the next number. So the numbers depend on the position alone.
-/

namespace HackVM

open Text

/-- The function that a line belongs to, or its unit before the first function. -/
structure Scope where
  name : String
deriving DecidableEq, Repr

/-- The scope of the lines before the first function of a unit. -/
def Scope.unit (name : String) : Scope := ⟨name⟩

def Scope.function (name : String) : Scope := ⟨name⟩

def Scope.qualify (s : Scope) (label : String) : String := s.name ++ "$" ++ label

/-- The scope of the lines after the command. -/
def Scope.after (s : Scope) : Command → Scope
  | .function name _ => .function name
  | _ => s

/-- The symbol of an element of the segment `static`. -/
def staticSymbol (unit : String) (index : Nat) : String := unit ++ "." ++ decimal index

/-- The label of the loop at the end of a program without a bootstrap. -/
def haltLabel : String := "END"

/-- How many calls and comparisons have been expanded. -/
structure Numbering where
  calls : Nat
  comparisons : Nat
deriving DecidableEq, Repr

namespace Numbering

def start : Numbering := ⟨0, 0⟩

/-- The label behind the next call. -/
def returnLabel (n : Numbering) (function : String) : String :=
  function ++ "$ret." ++ decimal (n.calls + 1)

/-- Where the next comparison goes on if it holds. -/
def trueLabel (n : Numbering) : String := "CMP$TRUE." ++ decimal (n.comparisons + 1)

/-- The label behind the next comparison. -/
def endLabel (n : Numbering) : String := "CMP$END." ++ decimal (n.comparisons + 1)

def afterCall (n : Numbering) : Numbering := { n with calls := n.calls + 1 }

def afterComparison (n : Numbering) : Numbering := { n with comparisons := n.comparisons + 1 }

/-- The numbering behind the command. -/
def after (n : Numbering) (c : Command) : Numbering :=
  if c.isCall then n.afterCall else if c.isComparison then n.afterComparison else n

theorem calls_after (n : Numbering) (c : Command) :
    (n.after c).calls = n.calls + if c.isCall then 1 else 0 := by
  unfold after
  split
  · rfl
  · split <;> rfl

theorem comparisons_after (n : Numbering) (c : Command) :
    (n.after c).comparisons = n.comparisons + if c.isComparison then 1 else 0 := by
  cases c with
  | arithmetic op => cases op <;> rfl
  | _ => rfl

end Numbering

end HackVM
