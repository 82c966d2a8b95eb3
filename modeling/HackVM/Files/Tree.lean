import HackVM.Files.Path

/-!
# File trees

A file tree without links is a finite map from routes to directories and files. A route is
the list of names that leads from the root to an entry; the root itself is always a directory.

A path is followed piece by piece from the root, or from the working directory if it does not
begin with a slash. All that a piece starts from must be a directory, also where the piece
leads nowhere, as behind a slash at the end.
-/

namespace HackVM

open Text

inductive FileError
  | notFound
  | notADirectory
  | isADirectory
  | nameTooLong
  | invalidEncoding
  | nulInPath
  | other (text : String)
deriving DecidableEq, Repr

def FileError.message : FileError → String
  | notFound => "No such file or directory (os error 2)"
  | notADirectory => "Not a directory (os error 20)"
  | isADirectory => "Is a directory (os error 21)"
  | nameTooLong => "File name too long (os error 36)"
  | invalidEncoding => "stream did not contain valid UTF-8"
  | nulInPath => "file name contained an unexpected NUL byte"
  | other text => text

/-! ## Routes -/

/-- A text that can name an entry of a directory. -/
def IsFileName (s : String) : Prop :=
  s ≠ "" ∧ s ≠ "." ∧ s ≠ ".." ∧ '/' ∉ s.toList

instance (s : String) : Decidable (IsFileName s) := by
  unfold IsFileName; infer_instance

structure FileName where
  text : String
  isFileName : IsFileName text
deriving DecidableEq

def FileName.ofText? (s : String) : Option FileName :=
  if h : IsFileName s then some ⟨s, h⟩ else none

abbrev Route := List FileName

/-- What a piece of a path does to the route. -/
inductive Move
  | stay
  | up
  | into (name : FileName)
deriving DecidableEq

def Move.ofPiece (piece : List Char) : Move :=
  if Path.isParent piece then .up
  else match FileName.ofText? (String.ofList piece) with
    | some name => .into name
    | none => .stay

def Path.moves (p : Path) : List Move := p.pieces.map Move.ofPiece

def Path.isAbsolute (p : Path) : Bool := p.text.toList.head? == some '/'

/-- A path leads nowhere if it is empty, very long or has a zero character. -/
def Path.check (p : Path) : Except FileError Unit :=
  if p.text.toList.contains '\x00' then .error .nulInPath
  else if p.text = "" then .error .notFound
  else if 4096 ≤ p.text.utf8ByteSize then .error .nameTooLong
  else .ok ()

/-! ## Trees -/

inductive Entry
  | directory
  | file (content : ByteArray)

structure FileTree where
  /-- Where a path begins that is not absolute. -/
  workingDirectory : Route
  entries : List (Route × Entry)
  distinct : (entries.map Prod.fst).Nodup

namespace FileTree

/-- A tree with no entries. -/
def empty (workingDirectory : Route) : FileTree := ⟨workingDirectory, [], by simp⟩

def get? (t : FileTree) (r : Route) : Option Entry :=
  if r = [] then some .directory else t.entries.lookup r

/-- The tree with this entry at the route, in place of one that may be there. -/
def insert (t : FileTree) (r : Route) (e : Entry) : FileTree where
  workingDirectory := t.workingDirectory
  entries := (r, e) :: t.entries.filter fun x => x.1 != r
  distinct := by
    rw [List.map_cons, List.nodup_cons]
    refine ⟨?_, (List.filter_sublist.map _).nodup t.distinct⟩
    simp

theorem get?_insert_self (t : FileTree) {r : Route} (h : r ≠ []) (e : Entry) :
    (t.insert r e).get? r = some e := by
  simp [get?, insert, h]

theorem lookup_filter_ne {r s : Route} (h : s ≠ r) (l : List (Route × Entry)) :
    (l.filter fun x => x.1 != r).lookup s = l.lookup s := by
  induction l with
  | nil => rfl
  | cons x l ih =>
    obtain ⟨k, v⟩ := x
    by_cases hk : k = r
    · have hs : (s == r) = false := by simpa using h
      simp [List.lookup_cons, hs, ih, hk]
    · simp [List.lookup_cons, hk, ih]

theorem get?_insert_of_ne (t : FileTree) {r s : Route} (h : s ≠ r) (e : Entry) :
    (t.insert r e).get? s = t.get? s := by
  have hs : (s == r) = false := by simpa using h
  unfold get?
  split
  · rfl
  · simp only [insert, List.lookup_cons, hs, lookup_filter_ne h]

/-! ## Following a path -/

/-- Make the moves one by one; whether there is an entry at the end is left open. -/
def follow (t : FileTree) (r : Route) : List Move → Except FileError Route
  | [] => .ok r
  | m :: ms =>
    match t.get? r with
    | none => .error .notFound
    | some (.file _) => .error .notADirectory
    | some .directory =>
      match m with
      | .stay => follow t r ms
      | .up => follow t r.dropLast ms
      | .into name =>
        if name.text.utf8ByteSize ≤ 255 then follow t (r ++ [name]) ms else .error .nameTooLong

/-- Make the moves with a new directory wherever a name leads to nothing. -/
def makeWay (t : FileTree) (r : Route) : List Move → FileTree × Route
  | [] => (t, r)
  | .stay :: ms => makeWay t r ms
  | .up :: ms => makeWay t r.dropLast ms
  | .into name :: ms =>
    let r := r ++ [name]
    makeWay (if (t.get? r).isSome then t else t.insert r .directory) r ms

def start (t : FileTree) (p : Path) : Route := if p.isAbsolute then [] else t.workingDirectory

/-- Insert an entry where the path leads, together with the directories on the way. -/
def place (t : FileTree) (p : Path) (e : Entry) : FileTree :=
  let way := t.makeWay (t.start p) p.moves
  way.1.insert way.2 e

def route (t : FileTree) (p : Path) : Except FileError Route := do
  p.check
  t.follow (t.start p) p.moves

/-- The entry that a path leads to, and its route. -/
def find (t : FileTree) (p : Path) : Except FileError (Route × Entry) := do
  let r ← t.route p
  match t.get? r with
  | some e => return (r, e)
  | none => throw .notFound

/-! ## Reading -/

def isDirectory (t : FileTree) (p : Path) : Bool :=
  match t.find p with
  | .ok (_, .directory) => true
  | _ => false

def isFile (t : FileTree) (p : Path) : Bool :=
  match t.find p with
  | .ok (_, .file _) => true
  | _ => false

def read (t : FileTree) (p : Path) : Except FileError ByteArray := do
  match ← t.find p with
  | (_, .file content) => return content
  | (_, .directory) => throw .isADirectory

/-- The name of an entry of the directory at `r`. -/
def nameIn? (r : Route) (x : Route × Entry) : Option FileName :=
  if x.1.dropLast = r then x.1.getLast? else none

/-- The names of the entries of a directory, in no particular order. -/
def names (t : FileTree) (p : Path) : Except FileError (List FileName) := do
  match ← t.find p with
  | (r, .directory) => return t.entries.filterMap (nameIn? r)
  | (_, .file _) => throw .notADirectory

/-- The name under which an entry stands in its directory; the root has none. -/
def ownName (t : FileTree) (p : Path) : Except FileError (Option FileName) := do
  let (r, _) ← t.find p
  return r.getLast?

/-! ## Writing -/

/-- The route of the file that is written by this path. Its directory must be there; a slash
behind the last piece asks for a directory. -/
def target (t : FileTree) (p : Path) : Except FileError Route := do
  p.check
  match p.pieces.reverse.dropWhile (· == []) with
  | [] => throw .isADirectory
  | last :: before =>
    let d ← t.follow (t.start p) (before.reverse.map Move.ofPiece ++ [.stay])
    match Move.ofPiece last with
    | .stay | .up => throw .isADirectory
    | .into name =>
      if p.text.toList.getLast? = some '/' then throw .isADirectory
      if 255 < name.text.utf8ByteSize then throw .nameTooLong
      match t.get? (d ++ [name]) with
      | some .directory => throw .isADirectory
      | _ => return d ++ [name]

/-- The tree with the file written. -/
def write (t : FileTree) (p : Path) (content : ByteArray) : Except FileError FileTree := do
  return t.insert (← t.target p) (.file content)

end FileTree

end HackVM
