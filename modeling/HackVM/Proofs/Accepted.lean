import HackVM.Proofs.Grammar
import HackVM.Proofs.Pieces

/-!
# Accepted programs

What is known of every site of an accepted program, and what follows for its instructions: all
of them are well formed and on one line. So the program is read back from its text, and the
text loads.
-/

namespace HackVM

open Assembly Instruction Sequence Text

/-! ## Source lines -/

theorem Text.newline_notMem_of_mem_lines {s l : List Char} (h : l ∈ lines s) : '\n' ∉ l := by
  intro hn
  have key : ∀ piece ∈ split (· == '\n') s, '\n' ∉ piece := by
    intro piece hp hm
    have := (mem_split hp _ hm).1
    simp at this
  simp only [lines, List.mem_append, List.mem_map] at h
  rcases h with ⟨piece, hp, rfl⟩ | h
  · have hm : '\n' ∈ piece := by
      rw [dropCarriageReturn] at hn
      split at hn
      · exact List.dropLast_subset _ hn
      · exact hn
    exact key piece (List.dropLast_subset _ hp) hm
  · split at h
    · simp at h
    · rw [List.mem_singleton] at h
      subst h
      exact key _ (List.getLast_mem _) hn

namespace SourceLine

theorem mem_of_mem_code {line : List Char} {c : Char} (h : c ∈ code line) : c ∈ line := by
  fun_induction code line with
  | case1 => simp at h
  | case2 => simp at h
  | case3 a cs _ ih =>
    rcases List.mem_cons.1 h with rfl | h
    · simp
    · simp [ih h]

/-- What a source line holds is trimmed and on one line. -/
theorem text_of_mem {source : String} {l : SourceLine} (h : l ∈ ofText source) :
    IsTrimmed l.text.toList ∧ '\n' ∉ l.text.toList := by
  obtain ⟨i, line, hi, hl⟩ := mem_ofText.1 h
  obtain ⟨-, ht, -⟩ := ofLine?_eq_some_iff.1 hl
  rw [ht]
  refine ⟨trim_isTrimmed _, ?_⟩
  intro hn
  exact newline_notMem_of_mem_lines (List.mem_of_getElem? hi)
    (mem_of_mem_code (mem_of_mem_trim hn))

end SourceLine

/-! ## Sites -/

/-- What holds of every site of an accepted program. -/
structure Site.Accepted (s : Site) : Prop where
  read : Command.read s.text = .ok s.command
  isTrimmed_text : IsTrimmed s.text.toList
  oneLine_text : '\n' ∉ s.text.toList
  isSymbol_unit : isSymbol s.place.unit = true
  isSymbol_scope : isSymbol s.place.scope.name = true

theorem Site.Accepted.inRange {s : Site} (h : s.Accepted) : s.command.InRange :=
  Command.inRange_of_read h.read

theorem Scope.isSymbol_after {s : Scope} {c : Command} (hs : isSymbol s.name = true)
    (hc : c.InRange) : isSymbol (s.after c).name = true := by
  cases c with
  | function name n => exact hc.1
  | _ => exact hs

theorem SourceUnit.accepted_of_mem_sitesFrom {unit : String} {scope : Scope}
    {ls : List SourceLine} (hu : isSymbol unit = true) (hs : isSymbol scope.name = true)
    (hl : ∀ l ∈ ls, IsTrimmed l.text.toList ∧ '\n' ∉ l.text.toList) {s : Site}
    (h : s ∈ sitesFrom unit scope ls) : s.Accepted := by
  induction ls generalizing scope with
  | nil => simp [sitesFrom] at h
  | cons l ls ih =>
    have hl' : ∀ k ∈ ls, IsTrimmed k.text.toList ∧ '\n' ∉ k.text.toList :=
      fun k hk => hl k (by simp [hk])
    rw [sitesFrom] at h
    split at h
    · rename_i c hc
      have hs' := Scope.isSymbol_after hs (Command.inRange_of_read hc)
      rcases List.mem_cons.1 h with rfl | h
      · exact ⟨hc, (hl l (by simp)).1, (hl l (by simp)).2, hu, hs'⟩
      · exact ih hs' hl' h
    · exact ih hs hl' h

theorem Translated.accepted {o : Options} {units : List SourceUnit} {p : Program}
    (h : Translated o units p) {s : Site} (hs : s ∈ sites units) : s.Accepted := by
  obtain ⟨u, hu, hs⟩ := List.mem_flatMap.1 hs
  have hn := h.isSymbol_name u hu
  exact SourceUnit.accepted_of_mem_sitesFrom hn hn (fun l hl => SourceLine.text_of_mem hl) hs

/-! ## Names -/

theorem isSymbol_append {s t : String} (hs : isSymbol s = true)
    (ht : ∀ c ∈ t.toList, isSymbolChar c = true) : isSymbol (s ++ t) = true := by
  rw [isSymbol, String.toList_append]
  exact isSymbolText_append hs ht

theorem isSymbol_append_decimal {s t : String} (hs : isSymbol s = true)
    (ht : ∀ c ∈ t.toList, isSymbolChar c = true) (n : Nat) :
    isSymbol (s ++ t ++ decimal n) = true :=
  isSymbol_append (isSymbol_append hs ht) fun _ => isSymbolChar_of_mem_decimal

theorem isSymbol_qualify {scope : Scope} {label : String} (hs : isSymbol scope.name = true)
    (hl : isSymbol label = true) : isSymbol (scope.qualify label) = true :=
  isSymbol_append (isSymbol_append hs (List.all_eq_true.1 (by decide))) (isSymbolChar_of_mem hl)

theorem isSymbol_staticSymbol {unit : String} (h : isSymbol unit = true) (i : Nat) :
    isSymbol (staticSymbol unit i) = true :=
  isSymbol_append_decimal h (List.all_eq_true.1 (by decide)) i

theorem isSymbol_returnLabel {f : String} (h : isSymbol f = true) (n : Numbering) :
    isSymbol (n.returnLabel f) = true :=
  isSymbol_append_decimal h (List.all_eq_true.1 (by decide)) _

theorem isSymbol_trueLabel (n : Numbering) : isSymbol n.trueLabel = true :=
  isSymbol_append (by decide) fun _ => isSymbolChar_of_mem_decimal

theorem isSymbol_endLabel (n : Numbering) : isSymbol n.endLabel = true :=
  isSymbol_append (by decide) fun _ => isSymbolChar_of_mem_decimal

theorem Register.wellFormed_address (r : Register) : r.address.WellFormed := by
  show isSymbol r.name = true
  cases r <;> decide

/-! ## Instructions -/

/-- Well-formed instructions and no comments. -/
def IsCode (code : List Instruction) : Prop := ∀ i ∈ code, i.WellFormed ∧ i.isComment = false

@[simp] theorem isCode_nil : IsCode [] := by simp [IsCode]

@[simp] theorem isCode_cons {i : Instruction} {code : List Instruction} :
    IsCode (i :: code) ↔ (i.WellFormed ∧ i.isComment = false) ∧ IsCode code := by
  simp [IsCode]

@[simp] theorem isCode_append {p q : List Instruction} :
    IsCode (p ++ q) ↔ IsCode p ∧ IsCode q := by
  simp only [IsCode, List.mem_append]
  constructor
  · exact fun h => ⟨fun i hi => h i (.inl hi), fun i hi => h i (.inr hi)⟩
  · rintro ⟨hp, hq⟩ i (hi | hi)
    · exact hp i hi
    · exact hq i hi

@[simp] theorem wellFormed_load {a : Address} :
    ((load a).WellFormed ∧ (load a).isComment = false) ↔ a.WellFormed := by
  simp [WellFormed, isComment]

@[simp] theorem wellFormed_label {name : String} :
    ((label name).WellFormed ∧ (label name).isComment = false) ↔ isSymbol name = true := by
  simp [WellFormed, isComment]

@[simp] theorem wellFormed_assign (t : Dest) (c : Comp) :
    (assign t c).WellFormed ∧ (assign t c).isComment = false := by
  simp [assign, WellFormed, isComment]

@[simp] theorem wellFormed_branch (c : Comp) (j : Jump) :
    (branch c j).WellFormed ∧ (branch c j).isComment = false := by
  simp [branch, WellFormed, isComment]

section

attribute [local simp] Register.wellFormed_address setA setD fetchD followA followD storeD
  storeDThrough put move increment decrement addA subA subFromA negD andA orA notD pushD popD popA
  pushValue pushCell popCell locate pushElement popElement testD jumpTo jumpUnlessZero jumpThrough

theorem isCode_pushValue {a : Address} (h : a.WellFormed) : IsCode (pushValue a) := by simp [h]

theorem isCode_pushCell {a : Address} (h : a.WellFormed) : IsCode (pushCell a) := by simp [h]

theorem isCode_popCell {a : Address} (h : a.WellFormed) : IsCode (popCell a) := by simp [h]

theorem isCode_pushElement (r : Register) {i : Nat} (h : i ≤ maxAddress) :
    IsCode (pushElement r i) := by
  have hv : (Address.value i).WellFormed := h
  simp [hv]

theorem isCode_popElement (r : Register) {i : Nat} (h : i ≤ maxAddress) :
    IsCode (popElement r i) := by
  have hv : (Address.value i).WellFormed := h
  simp [hv]

namespace Expansion

theorem isCode_push {unit : String} (hu : isSymbol unit = true) {s : Segment} {i : Nat}
    (h : i ≤ s.maxIndex) : IsCode (push unit s i) := by
  cases s with
  | constant => exact isCode_pushValue h
  | locals | arguments | this | that => exact isCode_pushElement _ h
  | temp =>
    exact isCode_pushCell (Nat.le_trans (Nat.add_le_add_left h _) (by decide))
  | pointer => exact isCode_pushCell (Register.wellFormed_address _)
  | static => exact isCode_pushCell (isSymbol_staticSymbol hu i)

theorem isCode_pop {unit : String} (hu : isSymbol unit = true) {s : Segment} {i : Nat}
    (h : i ≤ s.maxIndex) {code : List Instruction} (hc : pop unit s i = .ok code) :
    IsCode code := by
  cases s with
  | constant => cases hc
  | locals | arguments | this | that =>
    cases hc
    exact isCode_popElement _ h
  | temp =>
    cases hc
    exact isCode_popCell (Nat.le_trans (Nat.add_le_add_left h _) (by decide))
  | pointer =>
    cases hc
    exact isCode_popCell (Register.wellFormed_address _)
  | static =>
    cases hc
    exact isCode_popCell (isSymbol_staticSymbol hu i)

theorem isCode_arithmetic (n : Numbering) (op : ArithmeticOp) : IsCode (arithmetic n op) := by
  have ht : (Address.symbol n.trueLabel).WellFormed := isSymbol_trueLabel n
  have he : (Address.symbol n.endLabel).WellFormed := isSymbol_endLabel n
  cases op <;>
    simp [arithmetic, binary, unary, comparison, ht, he, isSymbol_trueLabel, isSymbol_endLabel]

theorem isCode_function {name : String} (h : isSymbol name = true) (locals : Nat) :
    IsCode (function name locals) := by
  rw [function, isCode_cons, wellFormed_label]
  refine ⟨h, ?_⟩
  intro i hi
  obtain ⟨_, hz, hi⟩ := List.mem_flatten.1 hi
  rw [List.eq_of_mem_replicate hz] at hi
  exact isCode_pushValue (Nat.zero_le _) i hi

theorem isCode_call {name : String} (h : isSymbol name = true) {args : Nat}
    (ha : args ≤ maxAddress) (n : Numbering) : IsCode (call n name args) := by
  have hr : (Address.symbol (n.returnLabel name)).WellFormed := isSymbol_returnLabel h n
  have hn : (Address.symbol name).WellFormed := h
  have hf : (Address.value MemoryMap.frameHeader).WellFormed := by
    show MemoryMap.frameHeader ≤ maxAddress
    decide
  have hv : (Address.value args).WellFormed := ha
  simp [call, Register.saved, hr, hn, hf, hv, isSymbol_returnLabel h]

theorem isCode_ret : IsCode ret := by
  have hf : (Address.value MemoryMap.frameHeader).WellFormed := by
    show MemoryMap.frameHeader ≤ maxAddress
    decide
  simp [ret, Register.saved, hf]

theorem isCode_bootstrap (n : Numbering) : IsCode (bootstrap n) := by
  have hs : (Address.value MemoryMap.stackBase).WellFormed := by
    show MemoryMap.stackBase ≤ maxAddress
    decide
  have he : isSymbol MemoryMap.entryPoint = true := by decide
  have hc := isCode_call he (Nat.zero_le _) n
  simp [bootstrap, hs, hc]

theorem isCode_haltLoop : IsCode haltLoop := by
  have h : isSymbol haltLabel = true := by decide
  have ha : (Address.symbol haltLabel).WellFormed := h
  simp [haltLoop, h, ha]

end Expansion

end

/-- The expansion of a command in range is code. -/
theorem Command.isCode_expand {c : Command} (hc : c.InRange) {p : Place} {n : Numbering}
    (hu : isSymbol p.unit = true) (hs : isSymbol p.scope.name = true) {code : List Instruction}
    (h : c.expand p n = .ok code) : IsCode code := by
  cases c with
  | push s i =>
    cases h
    exact Expansion.isCode_push hu hc
  | pop s i => exact Expansion.isCode_pop hu hc.2 h
  | arithmetic op =>
    cases h
    exact Expansion.isCode_arithmetic n op
  | label name =>
    cases h
    simp [isSymbol_qualify hs hc]
  | goto name =>
    cases h
    have ha : (Address.symbol (p.scope.qualify name)).WellFormed := isSymbol_qualify hs hc
    simp [jumpTo, ha]
  | ifGoto name =>
    cases h
    have ha : (Address.symbol (p.scope.qualify name)).WellFormed := isSymbol_qualify hs hc
    simp [popD, decrement, followD, followA, jumpUnlessZero, Register.wellFormed_address, ha]
  | function name k =>
    cases h
    exact Expansion.isCode_function hc.1 k
  | call name k =>
    cases h
    exact Expansion.isCode_call hc.1 hc.2 n
  | ret =>
    cases h
    exact Expansion.isCode_ret

theorem Command.exists_expand {c : Command} (hc : c.InRange) (p : Place) (n : Numbering) :
    ∃ code, c.expand p n = .ok code := by
  cases h : c.expand p n with
  | ok code => exact ⟨code, rfl⟩
  | error e =>
    obtain ⟨⟨i, rfl⟩, -⟩ := Command.expand_eq_error_iff.1 h
    exact absurd rfl hc.1

/-! ## Programs -/

namespace Translated

variable {o : Options} {units : List SourceUnit} {p : Program}

theorem mem_pieces (h : Translated o units p) {q : Piece} (hq : q ∈ pieces o units) :
    q = .bootstrap ∨ q = .halt ∨ ∃ s n, q = .command s n ∧ s.Accepted := by
  simp only [pieces, List.mem_append] at hq
  rcases hq with (hq | hq) | hq
  · split at hq
    · exact .inl (List.mem_singleton.1 hq)
    · simp at hq
  · obtain ⟨s, hs, n, rfl⟩ := mem_sitePieces hq
    exact .inr (.inr ⟨s, n, rfl, h.accepted hs⟩)
  · split at hq
    · simp at hq
    · exact .inr (.inl (List.mem_singleton.1 hq))

theorem isCode_code (h : Translated o units p) {q : Piece} (hq : q ∈ pieces o units) :
    IsCode q.code := by
  rcases h.mem_pieces hq with rfl | rfl | ⟨s, n, rfl, hs⟩
  · exact Expansion.isCode_bootstrap _
  · exact Expansion.isCode_haltLoop
  · obtain ⟨code, hc⟩ := Command.exists_expand hs.inRange s.place n
    have he : (Piece.command s n).code = code := by
      rw [Piece.code, hc]
      rfl
    rw [he]
    exact Command.isCode_expand hs.inRange hs.isSymbol_unit hs.isSymbol_scope hc

theorem text_piece (h : Translated o units p) {q : Piece} (hq : q ∈ pieces o units) :
    IsTrimmed q.text.toList ∧ '\n' ∉ q.text.toList := by
  rcases h.mem_pieces hq with rfl | rfl | ⟨s, n, rfl, hs⟩
  · have ht : trim Piece.bootstrap.text.toList = Piece.bootstrap.text.toList := by decide
    exact ⟨ht ▸ trim_isTrimmed _, by decide⟩
  · have ht : trim Piece.halt.text.toList = Piece.halt.text.toList := by decide
    exact ⟨ht ▸ trim_isTrimmed _, by decide⟩
  · exact ⟨hs.isTrimmed_text, hs.oneLine_text⟩

/-- Every instruction of an accepted program is well formed and takes one line. -/
theorem wellFormed_of_mem (h : Translated o units p) {i : Instruction}
    (hi : i ∈ p.instructions) : i.WellFormed ∧ i.OnOneLine := by
  rw [h.instructions] at hi
  obtain ⟨q, hq, hi⟩ := List.mem_flatMap.1 hi
  have hc := h.isCode_code hq
  have ht := h.text_piece hq
  have hcode : i ∈ q.code → i.WellFormed ∧ i.OnOneLine := fun hm =>
    ⟨(hc i hm).1, onOneLine_of_not_isComment (hc i hm).1 (hc i hm).2⟩
  simp only [SourceUnit.quoted] at hi
  split at hi
  · rcases List.mem_cons.1 hi with rfl | hi
    · exact ⟨ht.1, onOneLine_comment ht.2⟩
    · exact hcode hi
  · exact hcode hi

end Translated

end HackVM
