import HackVM.Fragment
import HackVM.Repetition

/-!
# Programs

A program is the fragments of its units in order. It either begins with the bootstrap, or
ends with the halt loop. All its labels share one name space, so a label that is declared
twice makes it ambiguous and is rejected.
-/

namespace HackVM

open Assembly

structure Program where
  instructions : List Instruction
  hasBootstrap : Bool
deriving DecidableEq, Repr

namespace Program

/-- The program in assembly. -/
def text (p : Program) : String := Instruction.render p.instructions

/-- Words of program memory that the program occupies. -/
def executableCount (p : Program) : Nat := p.instructions.countP (·.isExecutable)

end Program

/-- The fragments of the units in order, or the error of the first bad unit. -/
def translateUnits (o : Options) (n : Numbering) :
    List SourceUnit → Except TranslateError (List Fragment)
  | [] => .ok []
  | u :: us =>
    match u.translate o n with
    | (.error e, _) => .error e
    | (.ok fs, n') => (translateUnits o n' us).map (fs ++ ·)

theorem translateUnits_cons {o : Options} {n : Numbering} {u : SourceUnit} {us : List SourceUnit}
    {fs : List Fragment} (h : (u.translate o n).1 = .ok fs) :
    translateUnits o n (u :: us) = (translateUnits o (u.translate o n).2 us).map (fs ++ ·) := by
  rw [translateUnits, show u.translate o n = (.ok fs, (u.translate o n).2) from Prod.ext h rfl]

theorem translateUnits_cons_of_error {o : Options} {n : Numbering} {u : SourceUnit}
    {us : List SourceUnit} {e : TranslateError} (h : (u.translate o n).1 = .error e) :
    translateUnits o n (u :: us) = .error e := by
  rw [translateUnits, show u.translate o n = (.error e, (u.translate o n).2) from Prod.ext h rfl]

/-- The numbering in front of the first line. -/
def firstNumbering (hasBootstrap : Bool) : Numbering :=
  if hasBootstrap then Numbering.start.afterCall else .start

/-- The instructions in front of the fragments. -/
def opening (o : Options) (hasBootstrap : Bool) : List Instruction :=
  if hasBootstrap then SourceUnit.quoted o "bootstrap" (Expansion.bootstrap .start) else []

/-- The instructions behind the fragments. -/
def closing (o : Options) (hasBootstrap : Bool) : List Instruction :=
  if hasBootstrap then [] else SourceUnit.quoted o "halt" Expansion.haltLoop

/-- Put the fragments between the opening and the closing. -/
def assemble (o : Options) (hasBootstrap : Bool) (fs : List Fragment) : Program where
  instructions := opening o hasBootstrap ++ fs.flatMap (·.instructions) ++ closing o hasBootstrap
  hasBootstrap := hasBootstrap

/-- Translate the units as one program. The units as such are looked at before their lines,
and the labels of the program last. -/
def translate (o : Options) (units : List SourceUnit) : Except TranslateError Program := do
  if units.isEmpty then throw .noUnits
  if let some name := firstRepeated (units.map (·.name)) then throw (.duplicateUnit name)
  let hasBootstrap := o.bootstrap.appliesTo units.length
  let fs ← translateUnits o (firstNumbering hasBootstrap) units
  let p := assemble o hasBootstrap fs
  if let some name := firstRepeated (Instruction.labels p.instructions) then
    throw (.duplicateLabel name)
  return p

theorem translate_nil (o : Options) : translate o [] = .error .noUnits := rfl

end HackVM
