import HackVM.Assembly.Reader
import HackVM.MemoryMap
import HackVM.Repetition

/-!
# Program memory

Loading turns assembly into program memory. Labels and comments are dropped, and a symbol is
replaced by a number:

* a predefined symbol by its fixed value;
* a label by the number of words in front of its declaration;
* any other symbol is a variable. Variables get the cells from `firstVariable` on, in the
  order in which they are first used.
-/

namespace HackVM

open Assembly

/-- A word of program memory. -/
inductive Op
  | load (value : Word)
  | compute (dest : Option Dest) (comp : Comp) (jump : Option Jump)
deriving DecidableEq, Repr

structure Rom where
  code : Array Op
  /-- The labels with their addresses in program memory. -/
  labels : List (String × Nat)
  /-- The variables with their addresses in memory. -/
  cells : List (String × Nat)
deriving DecidableEq, Repr

inductive LoadError
  | read (line : Nat) (cause : ReadError)
  | duplicateLabel (name : String)
deriving DecidableEq, Repr

def LoadError.message : LoadError → String
  | read line cause => "line " ++ Text.decimal line ++ ": " ++ cause.message
  | duplicateLabel name => "label `" ++ name ++ "` is declared more than once"

namespace Rom

def size (r : Rom) : Nat := r.code.size

def labelAddress? (r : Rom) (name : String) : Option Nat := r.labels.lookup name

def variableAddress? (r : Rom) (name : String) : Option Nat := r.cells.lookup name

/-! ## Symbols -/

/-- Each declared name with the number of words in front of it, beginning with `words`. -/
def labelsFrom (words : Nat) : List Instruction → List (String × Nat)
  | [] => []
  | .label name :: code => (name, words) :: labelsFrom words code
  | i :: code => labelsFrom (if i.isExecutable then words + 1 else words) code

/-- The symbol that an instruction uses. -/
def used? : Instruction → Option String
  | .load (.symbol name) => some name
  | _ => none

/-- The value of a symbol that is no variable. -/
def known? (labels : List (String × Nat)) (name : String) : Option Nat :=
  (MemoryMap.predefined.lookup name).or (labels.lookup name)

/-- The variables in the order of their first use. -/
def variableNames (labels : List (String × Nat)) (code : List Instruction) : List String :=
  ((code.filterMap used?).filter fun name => (known? labels name).isNone).eraseDups

def placeVariables (names : List String) : List (String × Nat) :=
  names.zipIdx MemoryMap.firstVariable

/-- Every symbol that a program uses is known or one of its variables. -/
def resolve (labels cells : List (String × Nat)) (name : String) : Nat :=
  ((known? labels name).or (cells.lookup name)).getD 0

/-- The word of an executable instruction. -/
def op? (value : String → Nat) : Instruction → Option Op
  | .load (.value n) => some (.load (BitVec.ofNat 16 n))
  | .load (.symbol name) => some (.load (BitVec.ofNat 16 (value name)))
  | .compute dest comp jump => some (.compute dest comp jump)
  | .label _ | .comment _ => none

/-! ## Loading -/

/-- Program memory for instructions whose labels are distinct. -/
def link (code : List Instruction) : Rom :=
  let labels := labelsFrom 0 code
  let cells := placeVariables (variableNames labels code)
  ⟨(code.filterMap (op? (resolve labels cells))).toArray, labels, cells⟩

/-- The instructions on the source lines of a text, or the first line that holds none. -/
def readLines (text : String) : Except LoadError (List Instruction) :=
  (SourceLine.ofText text).mapM fun l => (Instruction.read l.text).mapError (.read l.number)

/-- All lines are read before labels are compared. -/
def load (text : String) : Except LoadError Rom := do
  let code ← readLines text
  if let some name := firstRepeated (Instruction.labels code) then throw (.duplicateLabel name)
  return link code

theorem map_fst_labelsFrom (words : Nat) (code : List Instruction) :
    (labelsFrom words code).map Prod.fst = Instruction.labels code := by
  fun_induction labelsFrom words code with
  | case1 => rfl
  | case2 words name code ih => simp [Instruction.labels, Instruction.declared?] at ih ⊢; exact ih
  | case3 words i code h ih =>
    rw [ih]
    cases i with
    | label name => exact absurd rfl (h name)
    | _ => rfl

theorem isSome_op? (value : String → Nat) (i : Instruction) :
    (op? value i).isSome = i.isExecutable := by
  cases i with
  | load a => cases a <;> rfl
  | _ => rfl

/-- There is one word for each executable instruction. -/
theorem size_link (code : List Instruction) :
    (link code).size = code.countP (·.isExecutable) := by
  simp only [size, link, List.size_toArray, List.length_filterMap_eq_countP, isSome_op?]

end Rom

end HackVM
