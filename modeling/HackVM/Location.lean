import HackVM.Text.Decimal

/-!
# Locations

A line of a unit, counted from one.
-/

namespace HackVM

structure Location where
  unit : String
  line : Nat
deriving DecidableEq, Repr

namespace Location

def text (l : Location) : String := l.unit ++ ".vm:" ++ Text.decimal l.line

/-- Stands for a place that is not known. -/
def unknown : Location := ⟨"<unknown>", 0⟩

end Location

end HackVM
