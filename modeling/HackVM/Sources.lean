import HackVM.Failure
import HackVM.Files.Disk
import HackVM.Json.Records
import HackVM.Text.Order

/-!
# Sources and output of a run

The sources of a program are one file or the files of one directory; a source file has the
extension `vm`. Each file is a unit and names it. In a directory the files are taken in the
order of their names, whatever order they are listed in.

The output stands beside a source file under the same name, or in the source directory under
the name of that directory.
-/

namespace HackVM

variable {m : Type → Type} [Monad m] [Disk m]

def sourceExtension : String := "vm"

def outputExtension : String := "asm"

def Path.isSource (p : Path) : Bool := p.extension? == some sourceExtension

/-! ## Finding -/

/-- The names in their order. -/
def inOrder (names : List String) : List String :=
  names.mergeSort fun a b => Text.precedes a.toList b.toList

theorem inOrder_perm (names : List String) : (inOrder names).Perm names :=
  List.mergeSort_perm names _

theorem pairwise_inOrder (names : List String) :
    (inOrder names).Pairwise fun a b => Text.precedes a.toList b.toList = true := by
  apply List.pairwise_mergeSort
  · exact fun _ _ _ => Text.precedes_trans
  · exact fun _ _ => Text.precedes_total _ _

/-- The order of the names does not depend on how they are listed. -/
theorem inOrder_eq_of_perm {xs ys : List String} (h : xs.Perm ys) : inOrder xs = inOrder ys := by
  have hp : (inOrder xs).Perm (inOrder ys) :=
    ((inOrder_perm xs).trans h).trans (inOrder_perm ys).symm
  exact hp.eq_of_pairwise
    (fun _ _ _ _ h h' => String.toList_inj.1 (Text.precedes_antisymm h h'))
    (pairwise_inOrder xs) (pairwise_inOrder ys)

/-- The paths of the entries of a directory that are named like sources, in order. -/
def sourcesAmong (directory : Path) (names : List String) : List Path :=
  ((inOrder names).map directory.join).filter Path.isSource

/-- The paths that lead to a file. -/
def filesAmong : List Path → ExceptT Failure m (List Path)
  | [] => return []
  | p :: ps => do
    if ← Disk.isFile p then return p :: (← filesAmong ps) else filesAmong ps

/-- The source files at a path. -/
def discover (p : Path) : ExceptT Failure m (List Path) := do
  if ← Disk.isDirectory p then
    match ← Disk.names p with
    | .error e => throw (.listDirectory p e)
    | .ok names =>
      let found ← filesAmong (sourcesAmong p names)
      if found.isEmpty then throw (.noSources p)
      return found
  else if ← Disk.isFile p then
    if p.isSource then return [p] else throw (.notASource p)
  else throw (.missing p)

/-! ## Reading -/

/-- The text of a file. -/
def readText (p : Path) (failure : FileError → Failure) : ExceptT Failure m String := do
  match ← Disk.read p with
  | .error e => throw (failure e)
  | .ok bytes =>
    match String.fromUTF8? bytes with
    | some text => return text
    | none => throw (failure .invalidEncoding)

/-- The name of the unit in a file. -/
def unitName (p : Path) : Except Failure String :=
  match p.stem? with
  | some name => .ok name
  | none => .error (.noUnitName p)

def readUnit (p : Path) : ExceptT Failure m SourceUnit := do
  let source ← readText p (.readSource p)
  return ⟨← unitName p, source⟩

def readUnits (ps : List Path) : ExceptT Failure m (List SourceUnit) := ps.mapM readUnit

/-- The options in a file, or the default ones where no file is given. -/
def loadOptions (config : Option Path) : ExceptT Failure m Options := do
  match config with
  | none => return .default
  | some p =>
    match Options.ofJson? (← readText p (.readConfig p)) with
    | some o => return o
    | none => throw (.invalidConfig p)

/-! ## Output -/

/-- Where the output goes if nothing else is asked for. -/
def defaultOutput (p : Path) : ExceptT Failure m Path := do
  if ← Disk.isDirectory p then
    match ← Disk.ownName p with
    | .error e => throw (.resolve p e)
    | .ok none => throw (.noOutputName p)
    | .ok (some name) => return p.join (name ++ "." ++ outputExtension)
  else return p.withExtension outputExtension

end HackVM
