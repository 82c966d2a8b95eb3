import HackVM.Files.Tree
import HackVM.Fragment

/-!
# Failures of a run

Why a run did not write its output, and what is said about it.
-/

namespace HackVM

inductive Failure
  | readConfig (p : Path) (cause : FileError)
  | invalidConfig (p : Path)
  | missing (p : Path)
  | notASource (p : Path)
  | listDirectory (p : Path) (cause : FileError)
  | noSources (p : Path)
  | readSource (p : Path) (cause : FileError)
  | noUnitName (p : Path)
  | translate (p : Path) (cause : TranslateError)
  | resolve (p : Path) (cause : FileError)
  | noOutputName (p : Path)
  | write (p : Path) (cause : FileError)
deriving DecidableEq

namespace Failure

/-- The error of a command is told twice, once in its place and once on its own. -/
def translateMessage (e : TranslateError) : String :=
  match e.cause? with
  | some cause => e.message ++ ": " ++ cause.message
  | none => e.message

def message : Failure → String
  | readConfig p cause => "failed to read config " ++ p.text ++ ": " ++ cause.message
  | invalidConfig p => "invalid config " ++ p.text
  | missing p => p.text ++ " does not exist"
  | notASource p => p.text ++ " is not a .vm file"
  | listDirectory p cause => "failed to read directory " ++ p.text ++ ": " ++ cause.message
  | noSources p => "no .vm files in " ++ p.text
  | readSource p cause => "failed to read " ++ p.text ++ ": " ++ cause.message
  | noUnitName p => "cannot derive a unit name from " ++ p.text
  | translate p cause => "failed to translate " ++ p.text ++ ": " ++ translateMessage cause
  | resolve p cause => "failed to resolve " ++ p.text ++ ": " ++ cause.message
  | noOutputName p => "cannot name output for " ++ p.text
  | write p cause => "failed to write " ++ p.text ++ ": " ++ cause.message

end Failure

end HackVM
