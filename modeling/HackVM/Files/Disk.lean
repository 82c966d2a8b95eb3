import HackVM.Files.Tree

/-!
# Access to files

What a run asks of the place where the files are. A file tree answers as the state of a
computation, and only writing changes it.
-/

namespace HackVM

class Disk (m : Type → Type) where
  isDirectory : Path → m Bool
  isFile : Path → m Bool
  /-- The names of the entries of a directory, in any order. -/
  names : Path → m (Except FileError (List String))
  read : Path → m (Except FileError ByteArray)
  /-- The name of an existing directory or file in the directory that holds it. -/
  ownName : Path → m (Except FileError (Option String))
  write : Path → ByteArray → m (Except FileError Unit)

/-- A computation that may fail has the same access. -/
instance {ε : Type} {m : Type → Type} [Monad m] [Disk m] : Disk (ExceptT ε m) where
  isDirectory p := ExceptT.lift (Disk.isDirectory p)
  isFile p := ExceptT.lift (Disk.isFile p)
  names p := ExceptT.lift (Disk.names p)
  read p := ExceptT.lift (Disk.read p)
  ownName p := ExceptT.lift (Disk.ownName p)
  write p content := ExceptT.lift (Disk.write p content)

namespace FileTree

/-- A write that fails leaves the tree as it is. -/
def tryWrite (t : FileTree) (p : Path) (content : ByteArray) : Except FileError Unit × FileTree :=
  match t.write p content with
  | .ok t' => (.ok (), t')
  | .error e => (.error e, t)

instance : Disk (StateM FileTree) where
  isDirectory p := return (← get).isDirectory p
  isFile p := return (← get).isFile p
  names p := return ((← get).names p).map fun names => names.map FileName.text
  read p := return (← get).read p
  ownName p := return ((← get).ownName p).map fun name => name.map FileName.text
  write p content := fun t => t.tryWrite p content

end FileTree

end HackVM
