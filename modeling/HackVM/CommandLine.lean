import HackVM.Files.Path
import HackVM.Options

/-!
# Command line

The arguments are read from left to right. What the grammar allows:

* long options `--name`, with a value as `--name value` or `--name=value`;
* short options behind one dash, several together; the first that takes a value takes the rest
  of its argument, less one `=`, or the next argument;
* `--`, after which every argument is a source;
* one source. A dash alone is a source too.

No option but the one for verbosity may be repeated, no value may be empty, and an argument
that begins with a dash is not taken for the value of an option. The first fault decides. A
request for the version or for help is answered where it stands.
-/

namespace HackVM

/-- A run that is asked for. -/
structure Invocation where
  source : Path
  output : Option Path
  config : Option Path
  noComments : Bool
  bootstrap : Option BootstrapPolicy
  verbosity : Nat
deriving DecidableEq, Repr

inductive Request
  | translate (i : Invocation)
  | version
  | help
deriving DecidableEq, Repr

inductive UsageError
  | unknownOption (text : String)
  | unexpectedArgument (text : String)
  | unexpectedValue (option : String)
  | missingValue (option : String)
  | emptyValue (option : String)
  | invalidPolicy (cause : UnknownPolicy)
  | repeatedOption (option : String)
  | missingSource
deriving DecidableEq, Repr

def UsageError.message : UsageError → String
  | unknownOption text => "unknown option `" ++ text ++ "`"
  | unexpectedArgument text => "unexpected argument `" ++ text ++ "`"
  | unexpectedValue option => option ++ " takes no value"
  | missingValue option => option ++ " needs a value"
  | emptyValue option => option ++ " needs a value that is not empty"
  | invalidPolicy cause => cause.message
  | repeatedOption option => option ++ " is given more than once"
  | missingSource => "no source is given"

namespace CommandLine

/-- What has been read so far. -/
structure Draft where
  source : Option Path
  output : Option Path
  config : Option Path
  noComments : Bool
  bootstrap : Option BootstrapPolicy
  verbosity : Nat

def Draft.empty : Draft := ⟨none, none, none, false, none, 0⟩

def Draft.finish (d : Draft) : Except UsageError Request :=
  match d.source with
  | none => .error .missingSource
  | some source =>
    .ok (.translate ⟨source, d.output, d.config, d.noComments, d.bootstrap, d.verbosity⟩)

/-- The options that take a value. -/
inductive Setting
  | output | config | bootstrap
deriving DecidableEq, Repr

def Setting.name : Setting → String
  | output => "--output"
  | config => "--config"
  | bootstrap => "--bootstrap"

/-- The options that take none. -/
inductive Switch
  | noComments | verbose | version | help
deriving DecidableEq, Repr

def Switch.name : Switch → String
  | noComments => "--no-comments"
  | verbose => "--verbose"
  | version => "--version"
  | help => "--help"

/-! ## Single options -/

/-- A path that is given once and is not empty. -/
def oncePath (name value : String) (old : Option Path) : Except UsageError (Option Path) :=
  if value = "" then .error (.emptyValue name)
  else if old.isSome then .error (.repeatedOption name)
  else .ok (some ⟨value⟩)

def Setting.apply (s : Setting) (value : String) (d : Draft) : Except UsageError Draft :=
  match s with
  | output => (oncePath s.name value d.output).map fun p => { d with output := p }
  | config => (oncePath s.name value d.config).map fun p => { d with config := p }
  | bootstrap =>
    if value = "" then .error (.emptyValue s.name)
    else if d.bootstrap.isSome then .error (.repeatedOption s.name)
    else match BootstrapPolicy.read value with
      | .ok policy => .ok { d with bootstrap := some policy }
      | .error e => .error (.invalidPolicy e)

def addSource (value : String) (d : Draft) : Except UsageError Draft :=
  if value = "" then .error (.emptyValue "the source")
  else if d.source.isSome then .error (.unexpectedArgument value)
  else .ok { d with source := some ⟨value⟩ }

/-- How reading goes on after an option. -/
inductive Effect
  | go (d : Draft)
  | await (s : Setting) (d : Draft)
  | answer (r : Request)

def Switch.apply (s : Switch) (d : Draft) : Except UsageError Effect :=
  match s with
  | noComments =>
    if d.noComments then .error (.repeatedOption s.name)
    else .ok (.go { d with noComments := true })
  | verbose => .ok (.go { d with verbosity := d.verbosity + 1 })
  | version => .ok (.answer .version)
  | help => .ok (.answer .help)

def longOptions : List (String × (Setting ⊕ Switch)) :=
  [("output", .inl .output), ("config", .inl .config), ("bootstrap", .inl .bootstrap),
    ("no-comments", .inr .noComments), ("verbose", .inr .verbose), ("version", .inr .version),
    ("help", .inr .help)]

def shortOptions : List (Char × (Setting ⊕ Switch)) :=
  [('o', .inl .output), ('v', .inr .verbose), ('V', .inr .version), ('h', .inr .help)]

/-- The long option whose text after the two dashes is `text`. -/
def long (text : List Char) (d : Draft) : Except UsageError Effect :=
  let (name, value) := match Text.cut? '=' text with
    | some (name, value) => (String.ofList name, some (String.ofList value))
    | none => (String.ofList text, none)
  match longOptions.lookup name, value with
  | none, _ => .error (.unknownOption ("--" ++ name))
  | some (.inl s), some value => (s.apply value d).map .go
  | some (.inl s), none => .ok (.await s d)
  | some (.inr s), some _ => .error (.unexpectedValue s.name)
  | some (.inr s), none => s.apply d

/-- The short options whose text after the dash is `text`. -/
def short : List Char → Draft → Except UsageError Effect
  | [], d => .ok (.go d)
  | c :: cs, d =>
    match shortOptions.lookup c with
    | none => .error (.unknownOption (String.ofList ['-', c]))
    | some (.inl s) =>
      if cs.isEmpty then .ok (.await s d)
      else (s.apply (String.ofList (if cs.head? = some '=' then cs.tail else cs)) d).map .go
    | some (.inr s) => do
      match ← s.apply d with
      | .go d => short cs d
      | e => return e

/-! ## All arguments -/

/-- Whether an argument is an option by its form. -/
def isOption (text : List Char) : Bool := text.head? == some '-' && text != ['-']

/-- Read the arguments from here on. `awaiting` is an option that stands before them and has
no value yet, and after `--` all of them are `plain`. -/
def readFrom (plain : Bool) (awaiting : Option Setting) (d : Draft) :
    List String → Except UsageError Request
  | [] =>
    match awaiting with
    | some s => .error (.missingValue s.name)
    | none => d.finish
  | a :: rest =>
    match awaiting with
    | some s => do
      if isOption a.toList then throw (.missingValue s.name)
      readFrom plain none (← s.apply a d) rest
    | none =>
      if plain || !isOption a.toList then do readFrom plain none (← addSource a d) rest
      else if a = "--" then readFrom true none d rest
      else do
        let effect ← match a.toList with
          | '-' :: '-' :: text => long text d
          | text => short text.tail d
        match effect with
        | .go d => readFrom plain none d rest
        | .await s d => readFrom plain (some s) d rest
        | .answer r => return r

def read (args : List String) : Except UsageError Request := readFrom false none .empty args

end CommandLine

end HackVM
