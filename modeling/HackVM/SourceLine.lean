import HackVM.Text.Split

/-!
# Source lines

A comment runs from `//` to the end of its line. A source line is what is left of a line when
its comment is cut off and it is trimmed, if that is not empty, together with the number of
the line, counted from one. Sources of both languages, commands and assembly, are read this
way.
-/

namespace HackVM

open Text

structure SourceLine where
  number : Nat
  text : String
deriving DecidableEq, Repr

namespace SourceLine

/-- The part of a line before its first `//`. -/
def code : List Char → List Char
  | [] => []
  | '/' :: '/' :: _ => []
  | c :: cs => c :: code cs

/-- What is left of line `number`. -/
def ofLine? (number : Nat) (line : List Char) : Option SourceLine :=
  let text := trim (code line)
  if text.isEmpty then none else some ⟨number, String.ofList text⟩

/-- The source lines of a text, in order. -/
def ofText (source : String) : List SourceLine :=
  ((lines source.toList).zipIdx 1).filterMap fun l => ofLine? l.2 l.1

theorem mem_ofText {source : String} {l : SourceLine} :
    l ∈ ofText source ↔ ∃ i line, (lines source.toList)[i]? = some line ∧
      ofLine? (i + 1) line = some l := by
  simp only [ofText, List.mem_filterMap, Prod.exists, List.mk_mem_zipIdx_iff_le_and_getElem?_sub]
  constructor
  · rintro ⟨line, n, ⟨hn, hg⟩, hl⟩
    exact ⟨n - 1, line, hg, by rwa [Nat.sub_add_cancel hn]⟩
  · rintro ⟨i, line, hg, hl⟩
    exact ⟨line, i + 1, ⟨by omega, by simpa using hg⟩, hl⟩

/-- A line gives a source line exactly when something is left of it, and then just that. -/
theorem ofLine?_eq_some_iff {n : Nat} {line : List Char} {l : SourceLine} :
    ofLine? n line = some l ↔
      l.number = n ∧ l.text.toList = trim (code line) ∧ trim (code line) ≠ [] := by
  rcases l with ⟨m, t⟩
  have ht : String.ofList (trim (code line)) = t ↔ t.toList = trim (code line) := by
    rw [← String.toList_inj, String.toList_ofList, eq_comm]
  by_cases h : trim (code line) = []
  · simp [ofLine?, h]
  · simp [ofLine?, h, ht, @eq_comm _ n m]

end SourceLine

end HackVM
