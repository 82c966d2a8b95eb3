import HackVM.Run

/-!
# The program

The file system of the machine that the program runs on, and the command as a program. What a
command does is defined elsewhere; here it is only carried out.
-/

namespace HackVM.OperatingSystem

/-- The cause that an error of the system stands for. -/
def fileError (e : IO.Error) : FileError :=
  match e with
  | .noFileOrDirectory _ _ _ => .notFound
  | .inappropriateType _ code details | .permissionDenied _ code details
  | .invalidArgument _ code details | .resourceExhausted _ code details
  | .noSuchThing _ code details | .alreadyExists _ code details
  | .otherError code details | .resourceBusy code details | .hardwareFault code details =>
    .other (details ++ " (os error " ++ Text.decimal code.toNat ++ ")")
  | e => .other (toString e)

def attempt {α : Type} (act : IO α) : IO (Except FileError α) := do
  match ← act.toBaseIO with
  | .ok a => return .ok a
  | .error e => return .error (fileError e)

/-- Whether the path leads to an entry of this type. -/
def hasType (p : Path) (type : IO.FS.FileType) : IO Bool := do
  match p.check, ← attempt do return (← (← IO.FS.realPath p.text).metadata).type with
  | .ok (), .ok t => return t == type
  | _, _ => return false

instance : Disk IO where
  isDirectory p := hasType p .dir
  isFile p := hasType p .file
  names p := attempt do
    return (← (← IO.FS.realPath p.text).readDir).toList.map fun e => e.fileName
  read p := attempt (IO.FS.withFile p.text .read fun h => h.readBinToEnd)
  ownName p := attempt do return (← IO.FS.realPath p.text).fileName
  write p content := attempt (IO.FS.writeBinFile p.text content)

end HackVM.OperatingSystem

open HackVM in
def main (args : List String) : IO UInt32 := do
  let outcome ← (HackVM.execute args : IO Outcome)
  IO.print outcome.stdout
  IO.eprint outcome.stderr
  return outcome.exitCode.toUInt32
