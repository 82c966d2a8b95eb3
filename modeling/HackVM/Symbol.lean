/-!
# Symbols

A symbol names an address: a register, a label, a variable. It consists of letters, digits
and the four marks `_ . $ :`, and does not begin with a digit.
-/

namespace HackVM

def isSymbolChar (c : Char) : Bool :=
  c.isAlphanum || c == '_' || c == '.' || c == '$' || c == ':'

def isSymbolStart (c : Char) : Bool := isSymbolChar c && !c.isDigit

def isSymbolText : List Char → Bool
  | [] => false
  | c :: cs => isSymbolStart c && cs.all isSymbolChar

def isSymbol (name : String) : Bool := isSymbolText name.toList

theorem isSymbolChar_of_isDigit {c : Char} (h : c.isDigit = true) : isSymbolChar c = true := by
  simp [isSymbolChar, Char.isAlphanum, h]

theorem isSymbolText_iff {s : List Char} :
    isSymbolText s = true ↔
      s ≠ [] ∧ (∀ c ∈ s, isSymbolChar c = true) ∧ ∀ c ∈ s.head?, c.isDigit = false := by
  cases s with
  | nil => simp [isSymbolText]
  | cons c cs => simp [isSymbolText, isSymbolStart]; grind

example : isSymbol "Main.fib$ret.12" = true ∧ isSymbol "1st" = false ∧ isSymbol "a-b" = false := by
  decide

/-- Symbol characters may follow a symbol. -/
theorem isSymbolText_append {s t : List Char} (hs : isSymbolText s = true)
    (ht : ∀ c ∈ t, isSymbolChar c = true) : isSymbolText (s ++ t) = true := by
  cases s with
  | nil => simp [isSymbolText] at hs
  | cons c cs =>
    simp only [isSymbolText, Bool.and_eq_true, List.all_eq_true, List.cons_append,
      List.mem_append] at hs ⊢
    exact ⟨hs.1, fun x hx => hx.elim (hs.2 x) (ht x)⟩

end HackVM
