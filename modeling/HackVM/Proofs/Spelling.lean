import HackVM.Proofs.Names

/-!
# How names are spelt

A name that is made up consists of names of the source, the separators `$` and `.`, and
numbers. It can be taken apart from its end, because no separator stands in a number: the last
`.` of a static divides the unit from the index, and the last `$` of a label what it belongs to
from the rest. So two labels are spelt alike only if they are made from the same parts, as
long as the names that the source declares have no separators of their own.
-/

namespace HackVM

open Assembly Instruction Text

/-! ## The last separator -/

/-- A text has only one last separator. -/
theorem Text.append_cons_inj {c : Char} {s t u v : List Char} (hu : c ∉ u) (hv : c ∉ v) :
    s ++ c :: u = t ++ c :: v ↔ s = t ∧ u = v := by
  constructor
  · intro h
    rcases List.append_eq_append_iff.1 h with ⟨w, ht, hw⟩ | ⟨w, hs, hw⟩
    · cases w with
      | nil => exact ⟨by rw [ht, List.append_nil], (List.cons.inj hw).2⟩
      | cons d w =>
        rw [(List.cons.inj hw).2] at hu
        simp at hu
    · cases w with
      | nil => exact ⟨by rw [hs, List.append_nil], (List.cons.inj hw).2.symm⟩
      | cons d w =>
        rw [(List.cons.inj hw).2] at hv
        simp at hv
  · rintro ⟨rfl, rfl⟩
    rfl

theorem notMem_decimal {c : Char} (hc : c.isDigit = false) (n : Nat) :
    c ∉ (decimal n).toList := by
  intro h
  rw [isDigit_of_mem_decimal h] at hc
  cases hc

/-- The symbol of a static tells its unit and its index, whatever the unit is called. -/
theorem staticSymbol_inj {u v : String} {i j : Nat} :
    staticSymbol u i = staticSymbol v j ↔ u = v ∧ i = j := by
  constructor
  · intro h
    have hl := congrArg String.toList h
    simp only [staticSymbol, String.toList_append, List.append_assoc] at hl
    obtain ⟨hu, hi⟩ := (append_cons_inj (c := '.') (notMem_decimal (by decide) i)
      (notMem_decimal (by decide) j)).1 hl
    exact ⟨String.toList_inj.1 hu, decimal_injective (String.toList_inj.1 hi)⟩
  · rintro ⟨rfl, rfl⟩
    rfl

/-! ## What labels are made from -/

inductive LabelOrigin
  /-- The entry of a function. -/
  | entry (function : String)
  /-- A label of the source in its scope. -/
  | qualified (scope label : String)
  /-- A label of a call or comparison. -/
  | numbered (base word : String) (number : Nat)
  | halt
deriving DecidableEq, Repr

namespace LabelOrigin

def text : LabelOrigin → String
  | entry f => f
  | qualified s l => (Scope.mk s).qualify l
  | numbered base word k => base ++ "$" ++ word ++ "." ++ decimal k
  | halt => haltLabel

def returning (n : Numbering) (function : String) : LabelOrigin :=
  numbered function "ret" (n.calls + 1)

def onTrue (n : Numbering) : LabelOrigin := numbered "CMP" "TRUE" (n.comparisons + 1)

def atEnd (n : Numbering) : LabelOrigin := numbered "CMP" "END" (n.comparisons + 1)

theorem text_returning (n : Numbering) (f : String) : (returning n f).text = n.returnLabel f := by
  rw [← String.toList_inj]
  simp [returning, text, Numbering.returnLabel]

/-- The parts that the source declares have no separators of their own. A scope and the name of
a called function may have any. -/
def Plain : LabelOrigin → Prop
  | entry f => '$' ∉ f.toList
  | qualified _ l => '$' ∉ l.toList ∧ '.' ∉ l.toList
  | numbered _ word _ => '$' ∉ word.toList ∧ '.' ∉ word.toList
  | halt => True

theorem toList_text_qualified (s l : String) :
    (qualified s l).text.toList = s.toList ++ '$' :: l.toList := by
  simp [text, Scope.qualify]

theorem toList_text_numbered (base word : String) (k : Nat) :
    (numbered base word k).text.toList =
      base.toList ++ '$' :: (word.toList ++ '.' :: (decimal k).toList) := by
  simp [text]

example : (numbered "CMP" "TRUE" 2).text = "CMP$TRUE.2" := by decide

theorem dollar_notMem_number {word : String} (hw : '$' ∉ word.toList) (k : Nat) :
    '$' ∉ word.toList ++ '.' :: (decimal k).toList := by
  rw [List.mem_append, List.mem_cons]
  rintro (h | h | h)
  · exact hw h
  · cases h
  · exact notMem_decimal (by decide) k h

theorem eq_of_text_qualified {s s' l l' : String} (hl : '$' ∉ l.toList) (hl' : '$' ∉ l'.toList)
    (h : (qualified s l).text = (qualified s' l').text) : s = s' ∧ l = l' := by
  have ht := congrArg String.toList h
  rw [toList_text_qualified, toList_text_qualified, Text.append_cons_inj hl hl'] at ht
  exact ⟨String.toList_inj.1 ht.1, String.toList_inj.1 ht.2⟩

theorem eq_of_text_numbered {b b' w w' : String} {k k' : Nat} (hw : '$' ∉ w.toList)
    (hw' : '$' ∉ w'.toList) (h : (numbered b w k).text = (numbered b' w' k').text) :
    b = b' ∧ w = w' ∧ k = k' := by
  have ht := congrArg String.toList h
  rw [toList_text_numbered, toList_text_numbered,
    Text.append_cons_inj (dollar_notMem_number hw k) (dollar_notMem_number hw' k'),
    Text.append_cons_inj (notMem_decimal (by decide) k) (notMem_decimal (by decide) k')] at ht
  obtain ⟨hb, hw, hk⟩ := ht
  exact ⟨String.toList_inj.1 hb, String.toList_inj.1 hw,
    decimal_injective (String.toList_inj.1 hk)⟩

/-- A label without a `.` is not one that has a number. -/
theorem text_qualified_ne_numbered {s l b w : String} {k : Nat} (hl : '$' ∉ l.toList)
    (hd : '.' ∉ l.toList) (hw : '$' ∉ w.toList) : (qualified s l).text ≠ (numbered b w k).text := by
  intro h
  have ht := congrArg String.toList h
  rw [toList_text_qualified, toList_text_numbered,
    Text.append_cons_inj hl (dollar_notMem_number hw k)] at ht
  rw [ht.2] at hd
  simp at hd

/-- Whether a label is joined from parts. -/
def isJoined : LabelOrigin → Bool
  | qualified .. | numbered .. => true
  | entry _ | halt => false

/-- A plain label shows by its `$` that it is joined from parts. -/
theorem dollar_mem_text_iff {a : LabelOrigin} (ha : a.Plain) :
    '$' ∈ a.text.toList ↔ a.isJoined = true := by
  cases a with
  | entry f => exact ⟨fun h => absurd h ha, fun h => by cases h⟩
  | qualified s l => simp [toList_text_qualified, isJoined]
  | numbered b w k => simp [toList_text_numbered, isJoined]
  | halt => decide

/-- Plain labels that are spelt alike have one origin, but for a function that is named like
the halt loop. -/
theorem eq_of_text_eq {a b : LabelOrigin} (ha : a.Plain) (hb : b.Plain) (h : a.text = b.text) :
    a = b ∨ (a = entry haltLabel ∧ b = halt) ∨ (a = halt ∧ b = entry haltLabel) := by
  have hj : a.isJoined = b.isJoined := by
    rw [Bool.eq_iff_iff, ← dollar_mem_text_iff ha, ← dollar_mem_text_iff hb, h]
  cases a with
  | entry f =>
    cases b with
    | entry g => exact .inl (congrArg entry h)
    | halt => exact .inr (.inl ⟨congrArg entry h, rfl⟩)
    | qualified s l => cases hj
    | numbered c w k => cases hj
  | qualified s l =>
    cases b with
    | qualified s' l' =>
      obtain ⟨rfl, rfl⟩ := eq_of_text_qualified ha.1 hb.1 h
      exact .inl rfl
    | numbered c w k => exact absurd h (text_qualified_ne_numbered ha.1 ha.2 hb.1)
    | entry g => cases hj
    | halt => cases hj
  | numbered c w k =>
    cases b with
    | numbered c' w' k' =>
      obtain ⟨rfl, rfl, rfl⟩ := eq_of_text_numbered ha.1 hb.1 h
      exact .inl rfl
    | qualified s l => exact absurd h.symm (text_qualified_ne_numbered hb.1 hb.2 ha.1)
    | entry g => cases hj
    | halt => cases hj
  | halt =>
    cases b with
    | entry g => exact .inr (.inr ⟨rfl, congrArg entry h.symm⟩)
    | halt => exact .inl rfl
    | qualified s l => cases hj
    | numbered c w k => cases hj

end LabelOrigin

end HackVM
