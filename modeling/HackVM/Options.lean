/-!
# Options

What can be asked for besides the program itself: comments that quote the source, and whether it
begins with the bootstrap.
-/

namespace HackVM

inductive BootstrapPolicy
  | auto | always | never
deriving DecidableEq, Repr

/-- A word that names no policy. -/
structure UnknownPolicy where
  word : String
deriving DecidableEq, Repr

def UnknownPolicy.message (e : UnknownPolicy) : String :=
  "unknown bootstrap policy `" ++ e.word ++ "` (expected auto, always or never)"

namespace BootstrapPolicy

def all : List BootstrapPolicy := [auto, always, never]

def keyword : BootstrapPolicy → String
  | auto => "auto"
  | always => "always"
  | never => "never"

def ofKeyword? (word : String) : Option BootstrapPolicy := all.find? fun p => p.keyword == word

def read (word : String) : Except UnknownPolicy BootstrapPolicy :=
  match ofKeyword? word with
  | some p => .ok p
  | none => .error ⟨word⟩

/-- Whether a program of this many units begins with the bootstrap. -/
def appliesTo (units : Nat) : BootstrapPolicy → Bool
  | auto => 1 < units
  | always => true
  | never => false

theorem read_keyword (p : BootstrapPolicy) : read p.keyword = .ok p := by cases p <;> rfl

end BootstrapPolicy

structure Options where
  /-- Put the source of each command in front of its instructions, as a comment. -/
  sourceComments : Bool
  bootstrap : BootstrapPolicy
deriving DecidableEq, Repr

def Options.default : Options := ⟨true, .auto⟩

/-- Requests on the command line go before the options of a file. -/
def Options.override (o : Options) (noComments : Bool) (policy : Option BootstrapPolicy) :
    Options where
  sourceComments := o.sourceComments && !noComments
  bootstrap := policy.getD o.bootstrap

end HackVM
