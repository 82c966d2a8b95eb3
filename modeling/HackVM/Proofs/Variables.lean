import HackVM.Proofs.Names
import HackVM.Proofs.Uniqueness
import HackVM.Proofs.Written

/-!
# Which variables a program has

Besides registers and labels of its own, the code of a command uses at most one symbol: that of
a static element, the target of a jump, or a function. The command refers to it. The variables
of an accepted program are what its commands refer to and nothing defines, in the order in
which that is first referred to, and each takes the next cell. Nothing bounds their number: if
there are more than lie between the first variable and the stack, the rest lie in the stack.
-/

namespace HackVM

open Assembly Instruction Sequence

/-! ## Lists without repetition -/

theorem eraseDups_sublist (l : List String) : l.eraseDups.Sublist l := by
  match l with
  | [] => exact List.Sublist.slnil
  | a :: l =>
    rw [List.eraseDups_cons]
    exact ((eraseDups_sublist _).trans List.filter_sublist).cons_cons a
termination_by l.length
decreasing_by exact Nat.lt_succ_of_le (List.length_filter_le _ _)

theorem nodup_eraseDups (l : List String) : l.eraseDups.Nodup := by
  match l with
  | [] => exact List.nodup_nil
  | a :: l =>
    rw [List.eraseDups_cons, List.nodup_cons]
    refine ⟨?_, nodup_eraseDups _⟩
    intro ha
    have hf := (List.mem_filter.1 (List.mem_eraseDups.1 ha)).2
    simp at hf
termination_by l.length
decreasing_by exact Nat.lt_succ_of_le (List.length_filter_le _ _)

/-! ## References -/

/-- What a command refers to outside of its own code. -/
def Command.reference? (p : Place) : Command → Option String
  | push .static i | pop .static i => some (staticSymbol p.unit i)
  | goto l | ifGoto l => some (p.scope.qualify l)
  | call f _ => some f
  | _ => none

/-- What a piece of a program refers to. -/
def Piece.reference? : Piece → Option String
  | bootstrap => some MemoryMap.entryPoint
  | command s _ => s.command.reference? s.place
  | halt => none

/-- What a program refers to, in order: a bootstrap calls the entry point. -/
def references (o : Options) (units : List SourceUnit) : List String :=
  (if o.bootstrap.appliesTo units.length then [MemoryMap.entryPoint] else []) ++
    (sites units).filterMap fun s => s.command.reference? s.place

/-- The program gives the symbol a value: it is predefined or a label. -/
def Program.defines (p : Program) (name : String) : Bool :=
  (MemoryMap.predefined.lookup name).isSome || (labels p.instructions).contains name

/-- What a program refers to and does not define, each name where it comes first. -/
def undefinedNames (o : Options) (units : List SourceUnit) (p : Program) : List String :=
  ((references o units).filter fun name => !p.defines name).eraseDups

/-! ## The symbols that code uses -/

/-- The symbols with the property `q` that the code uses, in order. -/
def uses (q : String → Bool) (code : List Instruction) : List String :=
  (code.filterMap Rom.used?).filter q

section

variable {q : String → Bool}

@[simp] theorem uses_nil : uses q [] = [] := rfl

@[simp] theorem uses_append (code more : List Instruction) :
    uses q (code ++ more) = uses q code ++ uses q more := by
  simp [uses]

@[simp] theorem uses_value (n : Nat) (code : List Instruction) :
    uses q (load (.value n) :: code) = uses q code := rfl

@[simp] theorem uses_symbol (name : String) (code : List Instruction) :
    uses q (load (.symbol name) :: code) = [name].filter q ++ uses q code := by
  show ([name] ++ code.filterMap Rom.used?).filter q = _
  rw [List.filter_append]
  rfl

@[simp] theorem uses_assign (t : Dest) (c : Comp) (code : List Instruction) :
    uses q (assign t c :: code) = uses q code := rfl

@[simp] theorem uses_branch (c : Comp) (j : Jump) (code : List Instruction) :
    uses q (branch c j :: code) = uses q code := rfl

@[simp] theorem uses_label (name : String) (code : List Instruction) :
    uses q (label name :: code) = uses q code := rfl

@[simp] theorem uses_comment (t : String) (code : List Instruction) :
    uses q (comment t :: code) = uses q code := rfl

variable (hr : ∀ r : Register, q r.name = false)

include hr

theorem uses_register (r : Register) (code : List Instruction) :
    uses q (load r.address :: code) = uses q code := by
  rw [Register.address, uses_symbol, List.filter_cons_of_neg (by simp [hr r])]
  rfl

attribute [local simp] setA setD fetchD followA followD storeD storeDThrough put move increment
  decrement addA subA subFromA negD andA orA notD pushD popD popA pushValue pushCell popCell
  locate pushElement popElement testD jumpTo jumpUnlessZero jumpThrough

namespace Expansion

theorem uses_push (unit : String) (s : Segment) (i : Nat) (scope : Scope) :
    uses q (push unit s i) =
      ((Command.push s i).reference? ⟨unit, scope⟩).toList.filter q := by
  cases s <;> simp [push, uses_register hr, Command.reference?]

theorem uses_pop {unit : String} {s : Segment} {i : Nat} {code : List Instruction}
    (h : pop unit s i = .ok code) (scope : Scope) :
    uses q code = ((Command.pop s i).reference? ⟨unit, scope⟩).toList.filter q := by
  cases s <;> cases h <;> simp [uses_register hr, Command.reference?]

theorem uses_arithmetic (n : Numbering) (op : ArithmeticOp)
    (hl : ∀ name ∈ labels (arithmetic n op), q name = false) : uses q (arithmetic n op) = [] := by
  cases op <;> simp_all [arithmetic, binary, unary, comparison, uses_register hr]

theorem uses_function (name : String) (locals : Nat) : uses q (function name locals) = [] := by
  have h : uses q (List.replicate locals (pushValue (0 : Nat))).flatten = [] := by
    induction locals with
    | zero => rfl
    | succ k ih =>
      rw [List.replicate_succ, List.flatten_cons, uses_append, ih]
      simp [uses_register hr]
  rw [function, uses_label, h]

theorem uses_call (n : Numbering) (name : String) (args : Nat)
    (hl : q (n.returnLabel name) = false) : uses q (call n name args) = [name].filter q := by
  simp [call, Register.saved, uses_register hr, hl]

theorem uses_ret : uses q ret = [] := by
  simp [ret, Register.saved, uses_register hr]

theorem uses_bootstrap (n : Numbering) (hl : q (n.returnLabel MemoryMap.entryPoint) = false) :
    uses q (bootstrap n) = [MemoryMap.entryPoint].filter q := by
  rw [bootstrap, uses_append, uses_call hr n _ _ hl]
  simp [uses_register hr]

end Expansion

/-- Besides registers and labels of its own, a piece uses what it refers to. -/
theorem Piece.uses_code {piece : Piece} (hl : ∀ name ∈ labels piece.code, q name = false) :
    uses q piece.code = piece.reference?.toList.filter q := by
  cases piece with
  | bootstrap => exact Expansion.uses_bootstrap hr _ (hl _ (List.mem_singleton_self _))
  | halt =>
    have hh : q haltLabel = false := hl _ (List.mem_singleton_self _)
    show uses q (label haltLabel :: jumpTo haltLabel) = []
    simp [hh]
  | command s n =>
    obtain ⟨⟨unit, scope⟩, t, c⟩ := s
    cases c with
    | push seg i => exact Expansion.uses_push hr unit seg i scope
    | pop seg i =>
      cases hc : Expansion.pop unit seg i with
      | ok code =>
        have he : (Piece.command ⟨⟨unit, scope⟩, t, .pop seg i⟩ n).code = code := code_command hc
        rw [he]
        exact Expansion.uses_pop hr hc scope
      | error e =>
        obtain ⟨rfl, -⟩ := Expansion.pop_eq_error_iff.1 hc
        rfl
    | arithmetic op => exact Expansion.uses_arithmetic hr n op hl
    | label l => rfl
    | goto l =>
      show uses q (jumpTo (scope.qualify l)) = _
      simp [reference?, Command.reference?]
    | ifGoto l =>
      show uses q (popD ++ jumpUnlessZero (scope.qualify l)) = _
      simp [reference?, Command.reference?, uses_register hr]
    | function f k => exact Expansion.uses_function hr f k
    | call f k => exact Expansion.uses_call hr n f k (hl _ (List.mem_singleton_self _))
    | ret => exact Expansion.uses_ret hr

theorem uses_instructions {o : Options} {ps : List Piece}
    (hl : ∀ name ∈ labels (instructions o ps), q name = false) :
    uses q (instructions o ps) = (ps.filterMap Piece.reference?).filter q := by
  induction ps with
  | nil => rfl
  | cons piece ps ih =>
    have hp : instructions o (piece :: ps) =
        SourceUnit.quoted o piece.text piece.code ++ instructions o ps := rfl
    have hu : uses q (SourceUnit.quoted o piece.text piece.code) = uses q piece.code := by
      rw [SourceUnit.quoted]
      split
      · exact uses_comment _ _
      · rfl
    rw [hp, labels_append, labels_quoted, List.forall_mem_append] at hl
    rw [hp, uses_append, hu, Piece.uses_code hr hl.1, ih hl.2, filterMap_cons_toList,
      List.filter_append]

end

/-! ## The variables of a program -/

theorem filterMap_reference?_sitePieces (n : Numbering) (ss : List Site) :
    (sitePieces n ss).filterMap Piece.reference? =
      ss.filterMap fun s => s.command.reference? s.place := by
  induction ss generalizing n with
  | nil => rfl
  | cons s ss ih =>
    rw [sitePieces, List.filterMap_cons, List.filterMap_cons, ih]
    rfl

theorem references_eq (o : Options) (units : List SourceUnit) :
    references o units = (pieces o units).filterMap Piece.reference? := by
  cases hb : o.bootstrap.appliesTo units.length with
  | true => simp [references, pieces, hb, filterMap_reference?_sitePieces, Piece.reference?]
  | false => simp [references, pieces, hb, filterMap_reference?_sitePieces, Piece.reference?]

namespace Program

theorem defines_name (p : Program) (r : Register) : p.defines r.name = true := by
  rw [defines, MemoryMap.lookup_predefined_name]
  rfl

theorem defines_of_mem_labels {p : Program} {name : String} (h : name ∈ labels p.instructions) :
    p.defines name = true := by
  simp [defines, h]

/-- Loading knows the symbols that the program defines. -/
theorem isNone_known? (p : Program) (name : String) :
    (Rom.known? (Rom.labelsFrom 0 p.instructions) name).isNone = !p.defines name := by
  rw [Bool.eq_iff_iff, Option.isNone_iff_eq_none, Rom.known?_eq_none_iff, defines]
  simp

end Program

variable {o : Options} {units : List SourceUnit} {p : Program}

namespace Translated

theorem uses_eq (h : Translated o units p) {q : String → Bool}
    (hr : ∀ r : Register, q r.name = false)
    (hl : ∀ name ∈ labels p.instructions, q name = false) :
    uses q p.instructions = (references o units).filter q := by
  rw [h.instructions] at hl ⊢
  rw [references_eq]
  exact uses_instructions hr hl

theorem variableNames_eq (h : Translated o units p) :
    Rom.variableNames (Rom.labelsFrom 0 p.instructions) p.instructions =
      undefinedNames o units p := by
  have hk : (fun name => (Rom.known? (Rom.labelsFrom 0 p.instructions) name).isNone) =
      fun name => !p.defines name := funext p.isNone_known?
  rw [Rom.variableNames, hk]
  show (uses (fun name => !p.defines name) p.instructions).eraseDups = _
  rw [h.uses_eq, undefinedNames]
  · intro r
    rw [p.defines_name]
    rfl
  · intro name hn
    rw [Program.defines_of_mem_labels hn]
    rfl

/-- The variables are what is referred to and not defined, one cell after the other. -/
theorem cells_link (h : Translated o units p) :
    (Rom.link p.instructions).cells =
      (undefinedNames o units p).zipIdx MemoryMap.firstVariable := by
  rw [← h.variableNames_eq]
  rfl

/-- There are no more variables than words. -/
theorem length_undefinedNames_le (h : Translated o units p) :
    (undefinedNames o units p).length ≤ p.executableCount := by
  rw [← h.variableNames_eq]
  refine Nat.le_trans (eraseDups_sublist _).length_le ?_
  refine Nat.le_trans (List.length_filter_le _ _) ?_
  rw [List.length_filterMap_eq_countP]
  refine List.countP_mono_left fun i _ hi => ?_
  cases i with
  | load a => rfl
  | _ => cases hi

end Translated

theorem nodup_undefinedNames : (undefinedNames o units p).Nodup := nodup_eraseDups _

/-- The cells of variables are taken without a gap. -/
theorem exists_mem_zipIdx_iff {names : List String} {c : Nat} :
    (∃ e ∈ names.zipIdx MemoryMap.firstVariable, e.2 = c) ↔
      MemoryMap.firstVariable ≤ c ∧ c < MemoryMap.firstVariable + names.length := by
  rw [← List.mem_range'_1, ← List.zipIdx_map_snd, List.mem_map]

/-- The variables stay out of the stack just if there are few of them. -/
theorem forall_mem_zipIdx_iff {names : List String} :
    (∀ e ∈ names.zipIdx MemoryMap.firstVariable,
        MemoryMap.firstVariable ≤ e.2 ∧ e.2 < MemoryMap.stackBase) ↔
      names.length ≤ MemoryMap.stackBase - MemoryMap.firstVariable := by
  have hf : MemoryMap.firstVariable = 16 := rfl
  have hs : MemoryMap.stackBase = 256 := rfl
  constructor
  · intro h
    refine Decidable.byContradiction fun hn => ?_
    have hc : MemoryMap.stackBase < MemoryMap.firstVariable + names.length := by omega
    obtain ⟨e, he, hs⟩ := exists_mem_zipIdx_iff.2 ⟨by decide, hc⟩
    have := h e he
    omega
  · intro h e he
    have := exists_mem_zipIdx_iff.1 ⟨e, he, rfl⟩
    omega

/-- The variables of an accepted program are what it refers to and does not define, in the
order of the first reference and in the cells from `firstVariable` on. So they stay out of
the stack just if there are at most 240 of them. -/
theorem variables_of_translated (h : translate o units = .ok p) :
    ∃ r, Rom.load p.text = .ok r ∧
      r.cells = (undefinedNames o units p).zipIdx MemoryMap.firstVariable ∧
      (undefinedNames o units p).Nodup ∧
      ((∀ e ∈ r.cells, MemoryMap.firstVariable ≤ e.2 ∧ e.2 < MemoryMap.stackBase) ↔
        (undefinedNames o units p).length ≤ MemoryMap.stackBase - MemoryMap.firstVariable) := by
  have ht := translated_of_translate h
  refine ⟨_, ht.load_text, ht.cells_link, nodup_undefinedNames, ?_⟩
  rw [ht.cells_link]
  exact forall_mem_zipIdx_iff

/-- Two statics, one of them used twice, and a jump to a label that is not declared. -/
def undeclaringUnit : SourceUnit :=
  ⟨"Main", "pop static 3\ngoto L\npush static 0\npush static 3\nlabel M"⟩

theorem variables_of_undeclaringUnit :
    ∃ p r, translate ⟨false, .auto⟩ [undeclaringUnit] = .ok p ∧ Rom.load p.text = .ok r ∧
      r.cells = [("Main.3", 16), ("Main$L", 17), ("Main.0", 18)] := by
  obtain ⟨p, hp⟩ : ∃ p, translate ⟨false, .auto⟩ [undeclaringUnit] = .ok p := ⟨_, rfl⟩
  obtain ⟨r, hr, hc, -⟩ := variables_of_translated hp
  have hu : undefinedNames ⟨false, .auto⟩ [undeclaringUnit] p = ["Main.3", "Main$L", "Main.0"] := by
    simp only [undefinedNames, Program.defines, (translated_of_translate hp).instructions]
    decide
  rw [hu] at hc
  exact ⟨p, r, hp, hr, hc⟩

/-! ## Too many variables -/

/-- The entry point gives `n` statics a value and stops in a loop. -/
def fillStatics (n : Nat) : List Command :=
  .function MemoryMap.entryPoint 0 ::
    (((List.range n).flatMap fun i => [.push .constant 7, .pop .static i]) ++
      [.label "END", .goto "END"])

def fillingUnit (n : Nat) : SourceUnit := .written "Main" (fillStatics n)

section

variable {n : Nat}

theorem inRange_fillStatics (hn : n ≤ maxAddress) : ∀ c ∈ fillStatics n, c.InRange := by
  intro c hc
  simp only [fillStatics, List.mem_cons, List.mem_append, List.mem_flatMap, List.mem_range,
    List.not_mem_nil, or_false] at hc
  rcases hc with rfl | ⟨i, hi, rfl | rfl⟩ | rfl | rfl
  · exact ⟨by decide, by decide⟩
  · show 7 ≤ maxAddress
    decide
  · exact ⟨by decide, show i ≤ maxAddress by omega⟩
  · show isSymbol "END" = true
    decide
  · show isSymbol "END" = true
    decide

theorem sites_fillingUnit (hn : n ≤ maxAddress) :
    sites [fillingUnit n] =
      (fillStatics n).map fun c => ⟨⟨"Main", .function MemoryMap.entryPoint⟩, c.text, c⟩ := by
  have hs : ∀ c ∈ ((List.range n).flatMap fun i => [Command.push .constant 7, .pop .static i]) ++
      [.label "END", .goto "END"], (Scope.function MemoryMap.entryPoint).after c =
        .function MemoryMap.entryPoint := by
    intro c hc
    simp only [List.mem_cons, List.mem_append, List.mem_flatMap, List.mem_range,
      List.not_mem_nil, or_false] at hc
    rcases hc with ⟨i, hi, rfl | rfl⟩ | rfl | rfl <;> rfl
  rw [sites, List.flatMap_singleton, fillingUnit,
    SourceUnit.sites_written (inRange_fillStatics hn), fillStatics, sitesOf]
  show _ :: sitesOf "Main" (.function MemoryMap.entryPoint) _ = _
  rw [sitesOf_of_forall hs]
  rfl

theorem functionNames_fillingUnit (hn : n ≤ maxAddress) :
    functionNames [fillingUnit n] = [MemoryMap.entryPoint] := by
  rw [functionNames, sites_fillingUnit hn]
  simp [fillStatics, List.filterMap_flatMap]

theorem scopedLabels_fillingUnit (hn : n ≤ maxAddress) :
    scopedLabels [fillingUnit n] = [(MemoryMap.entryPoint, "END")] := by
  rw [scopedLabels, sites_fillingUnit hn]
  simp [fillStatics, List.filterMap_flatMap, Scope.function]

theorem readable_fillingUnit (hn : n ≤ maxAddress) : Readable [fillingUnit n] := by
  refine ⟨by simp, by simp, ?_, ?_⟩
  · rw [List.forall_mem_singleton]
    show isSymbol "Main" = true
    decide
  · rw [List.forall_mem_singleton]
    exact SourceUnit.exists_read_written (inRange_fillStatics hn) "Main"

theorem plainNames_fillingUnit (hn : n ≤ maxAddress) :
    PlainNames ⟨false, .always⟩ [fillingUnit n] := by
  refine ⟨?_, ?_, ?_⟩
  · rw [functionNames_fillingUnit hn]
    decide
  · rw [scopedLabels_fillingUnit hn]
    decide
  · intro hb
    cases hb

theorem exists_translate_fillingUnit (hn : n ≤ maxAddress) :
    ∃ p, translate ⟨false, .always⟩ [fillingUnit n] = .ok p := by
  refine exists_translate (readable_fillingUnit hn)
    ((plainNames_fillingUnit hn).labels_nodup ?_ ?_)
  · rw [functionNames_fillingUnit hn]
    exact List.nodup_singleton _
  · rw [scopedLabels_fillingUnit hn]
    exact List.nodup_singleton _

/-- Each of the statics is a variable. -/
theorem staticSymbol_mem_undefinedNames (hn : n ≤ maxAddress)
    (h : Translated ⟨false, .always⟩ [fillingUnit n] p) {i : Nat} (hi : i < n) :
    staticSymbol "Main" i ∈ undefinedNames ⟨false, .always⟩ [fillingUnit n] p := by
  have hd : p.defines (staticSymbol "Main" i) = false := by
    have hp : MemoryMap.predefined.lookup (staticSymbol "Main" i) = none :=
      lookup_predefined_of_mem (.inr rfl) (dot_mem_staticSymbol _ _)
    have hl : staticSymbol "Main" i ∉ labels p.instructions := by
      intro hm
      rcases h.label_cases hm with hc | hc | ⟨s, hs, k, hk⟩
      · exact absurd (dollar_mem_staticSymbol hc) (by decide)
      · have hdot := dot_mem_staticSymbol "Main" i
        rw [hc] at hdot
        exact absurd hdot (by decide)
      · have hf : staticSymbol "Main" i ∈ functionNames [fillingUnit n] :=
          List.mem_filterMap.2 ⟨s, hs, by rw [hk]⟩
        rw [functionNames_fillingUnit hn, List.mem_singleton] at hf
        have hh := congrArg (fun t => t.toList.head?) hf
        simp [staticSymbol, MemoryMap.entryPoint] at hh
    simp [Program.defines, hp, hl]
  have hm : Command.pop .static i ∈ fillStatics n := by
    simp [fillStatics, hi]
  rw [undefinedNames, List.mem_eraseDups, List.mem_filter, hd]
  refine ⟨List.mem_append_right _ ?_, rfl⟩
  rw [sites_fillingUnit hn, List.filterMap_map]
  exact List.mem_filterMap.2 ⟨_, hm, rfl⟩

theorem le_length_undefinedNames (hn : n ≤ maxAddress)
    (h : Translated ⟨false, .always⟩ [fillingUnit n] p) :
    n ≤ (undefinedNames ⟨false, .always⟩ [fillingUnit n] p).length := by
  have hd : ((List.range n).map (staticSymbol "Main")).Nodup :=
    List.nodup_range.map fun i j hij => (staticSymbol_inj.1 hij).2
  have hs : (List.range n).map (staticSymbol "Main") ⊆
      undefinedNames ⟨false, .always⟩ [fillingUnit n] p := by
    intro name hm
    obtain ⟨i, hi, rfl⟩ := List.mem_map.1 hm
    exact staticSymbol_mem_undefinedNames hn h (List.mem_range.1 hi)
  have hl := hd.length_le_of_subset hs
  rwa [List.length_map, List.length_range] at hl

/-- Nothing bounds the number of variables, so they run on into the cells of the stack. -/
theorem exists_variables_fillingUnit (hn : n ≤ maxAddress) :
    ∃ p r, translate ⟨false, .always⟩ [fillingUnit n] = .ok p ∧ Rom.load p.text = .ok r ∧
      ∀ c, MemoryMap.firstVariable ≤ c → c < MemoryMap.firstVariable + n →
        ∃ e ∈ r.cells, e.2 = c := by
  obtain ⟨p, hp⟩ := exists_translate_fillingUnit hn
  have ht := translated_of_translate hp
  refine ⟨p, _, hp, ht.load_text, ?_⟩
  intro c hc hb
  rw [ht.cells_link]
  have hl := le_length_undefinedNames hn ht
  exact exists_mem_zipIdx_iff.2 ⟨hc, by omega⟩

end

/-- With 241 statics the first cell of the stack is a variable. -/
theorem variable_in_stack :
    ∃ p r, translate ⟨false, .always⟩ [fillingUnit 241] = .ok p ∧ Rom.load p.text = .ok r ∧
      ∃ e ∈ r.cells, e.2 = MemoryMap.stackBase := by
  have hn : 241 ≤ maxAddress := by decide
  obtain ⟨p, r, hp, hr, hv⟩ := exists_variables_fillingUnit hn
  exact ⟨p, r, hp, hr, hv MemoryMap.stackBase (by decide) (by decide)⟩

end HackVM
