import HackVM.Text.Split

/-!
# Paths

A path is a text whose pieces are separated by slashes. The file name is the last piece that
is neither empty nor a single dot; a path that ends in two dots has none. The last dot of a
file name separates its stem from its extension, unless the name begins with that dot.
-/

namespace HackVM

open Text

structure Path where
  text : String
deriving DecidableEq, Repr

namespace Path

def pieces (p : Path) : List (List Char) := split (· == '/') p.text.toList

/-- Whether the piece leads nowhere. -/
def isIdle (piece : List Char) : Bool := piece == [] || piece == ['.']

def isParent (piece : List Char) : Bool := piece == ['.', '.']

/-- The last piece that leads somewhere and the pieces before it, last first. -/
def lastPiece? (p : Path) : Option (List Char × List (List Char)) :=
  match p.pieces.reverse.dropWhile isIdle with
  | [] => none
  | piece :: before => if isParent piece then none else some (piece, before)

/-! ## Stem and extension -/

/-- The stem and the extension of a file name. -/
def splitName (name : List Char) : List Char × Option (List Char) :=
  match cut? '.' name.reverse with
  | some (ext, stem) => if stem.isEmpty then (name, none) else (stem.reverse, some ext.reverse)
  | none => (name, none)

def fileName? (p : Path) : Option String := p.lastPiece?.map fun l => String.ofList l.1

def stem? (p : Path) : Option String := p.lastPiece?.map fun l => String.ofList (splitName l.1).1

def extension? (p : Path) : Option String :=
  p.lastPiece?.bind fun l => (splitName l.1).2.map String.ofList

def ofPieces (pieces : List (List Char)) : Path :=
  ⟨String.ofList (List.intercalate ['/'] pieces)⟩

/-- The path up to the last dot of its file name, if it ends in that name and the name has an
extension. -/
def dropExtension (p : Path) : Path :=
  match p.pieces.reverse with
  | [] => p
  | name :: before =>
    match splitName name with
    | (stem, some _) => ofPieces (before.reverse ++ [stem ++ ['.']])
    | (_, none) => p

/-- Put the extension behind the stem of the file name. What follows the stem is cut off; a
path without a file name stays as it is. -/
def addExtension (p : Path) (ext : String) : Path :=
  match p.lastPiece? with
  | none => p
  | some (name, before) =>
    ofPieces (before.reverse ++ [(splitName name).1 ++ '.' :: ext.toList])

/-- Replace the extension of the file name, or add one. An extension at the end of the path is
dropped first; if that leaves two dots, they are no file name, and none is added. -/
def withExtension (p : Path) (ext : String) : Path := p.dropExtension.addExtension ext

/-- The path of an entry of the directory `p`. -/
def join (p : Path) (name : String) : Path :=
  let last := p.text.toList.getLast?
  ⟨p.text ++ (if last = none ∨ last = some '/' then "" else "/") ++ name⟩

end Path

end HackVM
