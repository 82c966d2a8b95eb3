import HackVM.Word

/-!
# The three fields of a compute instruction

A compute instruction lets the arithmetic unit combine two inputs: `x` is the data register
`D`, and `y` is either the address register `A` or the memory cell `M` that `A` selects. The
destination says where the result goes, the jump when control passes to the address in `A`.

Each field has one written form. A destination is read in any order of its letters, and a
computation that does not depend on the order of its operands also backwards.
-/

namespace HackVM.Assembly

/-! ## Destinations -/

inductive Dest
  | m | d | md | a | am | ad | amd
deriving DecidableEq, Repr

namespace Dest

def all : List Dest := [m, d, md, a, am, ad, amd]

/-- One letter for each place that is written. -/
def letters : Dest → List Char
  | m => ['M']
  | d => ['D']
  | md => ['M', 'D']
  | a => ['A']
  | am => ['A', 'M']
  | ad => ['A', 'D']
  | amd => ['A', 'M', 'D']

def writesA (t : Dest) : Bool := t.letters.contains 'A'

def writesD (t : Dest) : Bool := t.letters.contains 'D'

def writesM (t : Dest) : Bool := t.letters.contains 'M'

def read? (s : List Char) : Option Dest := all.find? fun t => t.letters.isPerm s

theorem mem_all (t : Dest) : t ∈ all := by cases t <;> decide

theorem read?_letters (t : Dest) : read? t.letters = some t := by cases t <;> rfl

theorem perm_of_read? {s : List Char} {t : Dest} (h : read? s = some t) : t.letters.Perm s := by
  have := List.find?_some (p := fun t : Dest => t.letters.isPerm s) h
  exact List.isPerm_iff.1 this

theorem eq_of_perm {t u : Dest} (h : t.letters.Perm u.letters) : t = u := by
  cases t <;> cases u <;> first | rfl | exact absurd (List.isPerm_iff.2 h) (by decide)

/-- A destination is read from the arrangements of its letters and from nothing else. -/
theorem read?_eq_some_iff {s : List Char} {t : Dest} : read? s = some t ↔ t.letters.Perm s := by
  refine ⟨perm_of_read?, fun h => ?_⟩
  have hs : (read? s).isSome = true :=
    List.find?_isSome.2 ⟨t, mem_all t, List.isPerm_iff.2 h⟩
  obtain ⟨u, hu⟩ := Option.isSome_iff_exists.1 hs
  rw [hu, eq_of_perm ((perm_of_read? hu).trans h.symm)]

end Dest

/-! ## Computations -/

/-- What the second input of the arithmetic unit is taken from. -/
inductive Input
  | a | m
deriving DecidableEq, Repr

def Input.letter : Input → Char
  | a => 'A'
  | m => 'M'

inductive Comp
  | zero | one | minusOne
  | x | y (i : Input)
  | notX | notY (i : Input)
  | negX | negY (i : Input)
  | incX | incY (i : Input)
  | decX | decY (i : Input)
  | add (i : Input)
  | sub (i : Input)
  | subFrom (i : Input)
  | and (i : Input)
  | or (i : Input)
deriving DecidableEq, Repr

namespace Comp

/-- The two forms of a computation on the second input. -/
def both (f : Input → Comp) : List Comp := [f .a, f .m]

def all : List Comp :=
  [zero, one, minusOne, x] ++ both y ++ [notX] ++ both notY ++ [negX] ++ both negY ++
    [incX] ++ both incY ++ [decX] ++ both decY ++ both add ++ both sub ++ both subFrom ++
    both and ++ both or

def text : Comp → List Char
  | zero => ['0']
  | one => ['1']
  | minusOne => ['-', '1']
  | x => ['D']
  | y i => [i.letter]
  | notX => ['!', 'D']
  | notY i => ['!', i.letter]
  | negX => ['-', 'D']
  | negY i => ['-', i.letter]
  | incX => ['D', '+', '1']
  | incY i => [i.letter, '+', '1']
  | decX => ['D', '-', '1']
  | decY i => [i.letter, '-', '1']
  | add i => ['D', '+', i.letter]
  | sub i => ['D', '-', i.letter]
  | subFrom i => [i.letter, '-', 'D']
  | and i => ['D', '&', i.letter]
  | or i => ['D', '|', i.letter]

/-- The computations whose two operands may change places. -/
def isCommutative : Comp → Bool
  | incX | incY _ | add _ | and _ | or _ => true
  | _ => false

/-- The ways to write a computation. -/
def spellings (c : Comp) : List (List Char) :=
  c.text :: if c.isCommutative then [c.text.reverse] else []

def read? (s : List Char) : Option Comp := all.find? fun c => c.spellings.contains s

/-- What the second input is taken from, if the computation uses it. -/
def input? : Comp → Option Input
  | y i | notY i | negY i | incY i | decY i | add i | sub i | subFrom i | and i | or i => some i
  | zero | one | minusOne | x | notX | negX | incX | decX => none

def readsMemory (c : Comp) : Bool := c.input? == some .m

/-- The result for the inputs `x` and `y`; words wrap around. -/
def eval (x y : Word) : Comp → Word
  | zero => 0
  | one => 1
  | minusOne => -1
  | .x => x
  | .y _ => y
  | notX => ~~~x
  | notY _ => ~~~y
  | negX => -x
  | negY _ => -y
  | incX => x + 1
  | incY _ => y + 1
  | decX => x - 1
  | decY _ => y - 1
  | add _ => x + y
  | sub _ => x - y
  | subFrom _ => y - x
  | and _ => x &&& y
  | or _ => x ||| y

theorem mem_all (c : Comp) : c ∈ all := by
  cases c <;> first | decide | (rename_i i; cases i <;> decide)

theorem read?_text (c : Comp) : read? c.text = some c := by
  cases c <;> first | rfl | (rename_i i; cases i <;> rfl)

/-- No text spells two computations. -/
theorem eq_of_mem_spellings {s : List Char} {c e : Comp} (hc : s ∈ c.spellings)
    (he : s ∈ e.spellings) : c = e := by
  have key : ∀ c ∈ all, ∀ e ∈ all, ∀ s ∈ c.spellings, s ∈ e.spellings → c = e := by
    decide +kernel
  exact key c (mem_all c) e (mem_all e) s hc he

theorem mem_spellings_of_read? {s : List Char} {c : Comp} (h : read? s = some c) :
    s ∈ c.spellings := by
  have := List.find?_some (p := fun c : Comp => c.spellings.contains s) h
  exact List.contains_iff_mem.1 this

theorem read?_eq_some_iff {s : List Char} {c : Comp} : read? s = some c ↔ s ∈ c.spellings := by
  refine ⟨mem_spellings_of_read?, fun h => ?_⟩
  have hs : (read? s).isSome = true :=
    List.find?_isSome.2 ⟨c, mem_all c, List.contains_iff_mem.2 h⟩
  obtain ⟨e, he⟩ := Option.isSome_iff_exists.1 hs
  rw [he, eq_of_mem_spellings (mem_spellings_of_read? he) h]

example : read? ['A', '+', 'D'] = some (add .a) ∧ read? ['1', '+', 'M'] = some (incY .m) := by
  decide
example : read? ['A', '-', 'D'] = some (subFrom .a) ∧ read? ['1', '-', 'D'] = none := by decide

end Comp

/-! ## Jumps -/

inductive Jump
  | gt | eq | ge | lt | ne | le | always
deriving DecidableEq, Repr

namespace Jump

def all : List Jump := [gt, eq, ge, lt, ne, le, always]

def text : Jump → List Char
  | gt => ['J', 'G', 'T']
  | eq => ['J', 'E', 'Q']
  | ge => ['J', 'G', 'E']
  | lt => ['J', 'L', 'T']
  | ne => ['J', 'N', 'E']
  | le => ['J', 'L', 'E']
  | always => ['J', 'M', 'P']

def read? (s : List Char) : Option Jump := all.find? fun j => j.text == s

/-- Whether control is passed on when the computed value is `v`, a signed number. -/
def isTaken (v : Word) : Jump → Bool
  | gt => 0 < v.toInt
  | eq => v.toInt == 0
  | ge => 0 ≤ v.toInt
  | lt => v.toInt < 0
  | ne => v.toInt != 0
  | le => v.toInt ≤ 0
  | always => true

theorem mem_all (j : Jump) : j ∈ all := by cases j <;> decide

theorem read?_text (j : Jump) : read? j.text = some j := by cases j <;> rfl

theorem read?_eq_some_iff {s : List Char} {j : Jump} : read? s = some j ↔ s = j.text := by
  constructor
  · intro h
    have := List.find?_some (p := fun j : Jump => j.text == s) h
    exact (eq_of_beq this).symm
  · rintro rfl
    exact read?_text j

end Jump

end HackVM.Assembly
