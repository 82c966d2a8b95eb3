import HackVM.Expansion
import HackVM.Location
import HackVM.Options
import HackVM.SourceLine

/-!
# Fragments

A unit is one source; its name scopes the static elements. Translating a unit gives one
fragment for each source line: where the line is, what it says, and its instructions. From
line to line the scope and the numbering are handed on; the numbering is also handed on from
unit to unit, even past a line that cannot be translated.
-/

namespace HackVM

open Assembly

structure SourceUnit where
  name : String
  source : String
deriving DecidableEq, Repr

/-- What one source line became. -/
structure Fragment where
  location : Location
  text : String
  instructions : List Instruction
deriving DecidableEq, Repr

inductive TranslateError
  | command (location : Location) (text : String) (cause : CommandError)
  | noUnits
  | duplicateUnit (name : String)
  | invalidUnitName (name : String)
  | duplicateLabel (name : String)
deriving DecidableEq, Repr

namespace TranslateError

def message : TranslateError → String
  | command location text cause => location.text ++ ": " ++ cause.message ++ " in `" ++ text ++ "`"
  | noUnits => "no compilation units to translate"
  | duplicateUnit name => "duplicate compilation unit `" ++ name ++ "`"
  | invalidUnitName name =>
    "compilation unit name `" ++ name ++ "` is not a valid assembler symbol"
  | duplicateLabel name => "label `" ++ name ++ "` is declared more than once"

/-- The error of the command itself, if it is one. -/
def cause? : TranslateError → Option CommandError
  | command _ _ cause => some cause
  | _ => none

end TranslateError

namespace SourceUnit

/-! ## One line -/

/-- What is handed on from line to line. -/
structure Progress where
  scope : Scope
  numbering : Numbering
deriving DecidableEq, Repr

/-- A function begins its scope with its own line. -/
def Progress.enter (s : Progress) (c : Command) : Progress := { s with scope := s.scope.after c }

def Progress.pass (s : Progress) (c : Command) : Progress :=
  { s with numbering := s.numbering.after c }

/-- The instructions of a command, after the comment that quotes it. -/
def quoted (o : Options) (text : String) (code : List Instruction) : List Instruction :=
  if o.sourceComments then .comment text :: code else code

/-- The fragment of one line, and what is handed on to the next. -/
def translateLine (o : Options) (unit : String) (s : Progress) (l : SourceLine) :
    Except TranslateError (Fragment × Progress) := do
  let here : Location := ⟨unit, l.number⟩
  let c ← (Command.read l.text).mapError (.command here l.text)
  let s := s.enter c
  let code ← (c.expand ⟨unit, s.scope⟩ s.numbering).mapError (.command here l.text)
  return (⟨here, l.text, quoted o l.text code⟩, s.pass c)

/-- A line is translated if it is a command that has an expansion. -/
theorem translateLine_eq_ok {o : Options} {unit : String} {s s' : Progress} {l : SourceLine}
    {f : Fragment} (h : translateLine o unit s l = .ok (f, s')) :
    ∃ c code, Command.read l.text = .ok c ∧
      c.expand ⟨unit, (s.enter c).scope⟩ (s.enter c).numbering = .ok code ∧
      f = ⟨⟨unit, l.number⟩, l.text, quoted o l.text code⟩ ∧ s' = (s.enter c).pass c := by
  unfold translateLine at h
  cases hc : Command.read l.text with
  | error e =>
    rw [hc] at h
    cases h
  | ok c =>
    refine ⟨c, ?_⟩
    rw [hc] at h
    change (((c.expand ⟨unit, (s.enter c).scope⟩ (s.enter c).numbering).mapError _).bind _) = _ at h
    cases he : c.expand ⟨unit, (s.enter c).scope⟩ (s.enter c).numbering with
    | error e =>
      rw [he] at h
      cases h
    | ok code =>
      rw [he] at h
      cases h
      exact ⟨code, rfl, rfl, rfl, rfl⟩

/-! ## One unit -/

/-- The fragments of the lines, or the error of the first bad one, and the numbering behind
the last line that was translated. -/
def translateLines (o : Options) (unit : String) (s : Progress) :
    List SourceLine → Except TranslateError (List Fragment) × Numbering
  | [] => (.ok [], s.numbering)
  | l :: ls =>
    match translateLine o unit s l with
    | .error e => (.error e, s.numbering)
    | .ok (f, s') =>
      let rest := translateLines o unit s' ls
      (rest.1.map (f :: ·), rest.2)

/-- The name is looked at before any line. -/
def translate (o : Options) (n : Numbering) (u : SourceUnit) :
    Except TranslateError (List Fragment) × Numbering :=
  if isSymbol u.name then
    translateLines o u.name ⟨.unit u.name, n⟩ (SourceLine.ofText u.source)
  else (.error (.invalidUnitName u.name), n)

/-- A translated unit has one fragment for each source line, with its place and its text. -/
theorem translateLines_eq_ok {o : Options} {unit : String} {ls : List SourceLine} {s : Progress}
    {fs : List Fragment} (h : (translateLines o unit s ls).1 = .ok fs) :
    fs.map (fun f => (f.location, f.text)) = ls.map fun l => (⟨unit, l.number⟩, l.text) := by
  induction ls generalizing s fs with
  | nil =>
    cases h
    rfl
  | cons l ls ih =>
    rw [translateLines] at h
    split at h
    · simp at h
    · rename_i f s' hl
      cases hr : (translateLines o unit s' ls).1 with
      | error e => simp [hr, Except.map] at h
      | ok rest =>
        simp only [hr, Except.map, Except.ok.injEq] at h
        subst h
        rw [List.map_cons, List.map_cons, ih hr]
        congr 1
        obtain ⟨_, _, -, -, rfl, -⟩ := translateLine_eq_ok hl
        rfl

end SourceUnit

end HackVM
