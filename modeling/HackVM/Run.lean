import HackVM.CommandLine
import HackVM.Program
import HackVM.Sources

/-!
# Runs

A run reads the options and the sources, translates them and writes the output as its last
act. What was asked for on the command line goes before the options of the configuration file.
-/

namespace HackVM

variable {m : Type → Type} [Monad m] [Disk m]

/-- What a run writes, and where. -/
structure Output where
  path : Path
  text : String
deriving DecidableEq, Repr

/-- All of a run but the writing. -/
def prepare (i : Invocation) : ExceptT Failure m Output := do
  let o := (← loadOptions i.config).override i.noComments i.bootstrap
  let units ← readUnits (← discover i.source)
  let p ← match translate o units with
    | .ok p => pure p
    | .error e => throw (.translate i.source e)
  let path ← match i.output with
    | some path => pure path
    | none => defaultOutput i.source
  return ⟨path, p.text⟩

def run (i : Invocation) : ExceptT Failure m Unit := do
  let out ← prepare i
  match ← Disk.write out.path out.text.toUTF8 with
  | .ok () => return
  | .error e => throw (.write out.path e)

/-! ## The whole command -/

/-- How a command ends. -/
inductive Outcome
  | done
  | version
  | help
  | misused (e : UsageError)
  | failed (e : Failure)
deriving DecidableEq

def execute (args : List String) : m Outcome := do
  match CommandLine.read args with
  | .error e => return .misused e
  | .ok .version => return .version
  | .ok .help => return .help
  | .ok (.translate i) =>
    match ← (run i : ExceptT Failure m Unit).run with
    | .ok () => return .done
    | .error e => return .failed e

namespace Outcome

def versionText : String := "vmt 0.1.0\n"

def usageText : String :=
  "Usage: vmt [OPTIONS] <SOURCE>\n\n" ++
  "  -o, --output <FILE>     where to write the assembly\n" ++
  "      --config <FILE>     options in JSON\n" ++
  "      --no-comments       no source comments in the output\n" ++
  "      --bootstrap <WHEN>  auto, always or never\n" ++
  "  -v, --verbose           may be repeated\n" ++
  "  -h, --help              this text\n" ++
  "  -V, --version           the version\n"

def exitCode : Outcome → UInt8
  | done | version | help => 0
  | failed _ => 1
  | misused _ => 2

/-- What goes to the standard output. -/
def stdout : Outcome → String
  | version => versionText
  | help => usageText
  | _ => ""

/-- What goes to the standard error. -/
def stderr : Outcome → String
  | failed e => "Error: " ++ e.message ++ "\n"
  | misused e => "error: " ++ e.message ++ "\n\n" ++ usageText
  | _ => ""

end Outcome

end HackVM
