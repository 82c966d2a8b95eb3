import HackVM.Proofs.Layout

/-!
# What names stand for

All symbols of a program share one name space. Loading takes a predefined symbol before a
label and a label before a variable. Every label that translation makes up carries a `$` or is
the halt label, and no predefined symbol does. So the name of a function is the only label
that a predefined symbol can hide.
-/

namespace HackVM

open Assembly Instruction Sequence Text

/-! ## The value of a symbol -/

namespace Rom

/-- A predefined symbol has its fixed value, whatever the program declares. -/
theorem value_of_predefined {r : Rom} {name : String} {v : Nat}
    (h : MemoryMap.predefined.lookup name = some v) : r.value name = BitVec.ofNat 16 v := by
  rw [value, resolve, known?, h]
  rfl

/-- Another name that is declared stands for the address of its label. -/
theorem value_of_label {r : Rom} {name : String} {a : Nat}
    (hp : MemoryMap.predefined.lookup name = none) (h : r.labelAddress? name = some a) :
    r.value name = BitVec.ofNat 16 a := by
  rw [labelAddress?] at h
  rw [value, resolve, known?, hp, h]
  rfl

theorem value_of_variable {r : Rom} {name : String} {c : Nat}
    (hp : MemoryMap.predefined.lookup name = none) (hl : r.labelAddress? name = none)
    (h : r.variableAddress? name = some c) : r.value name = BitVec.ofNat 16 c := by
  rw [labelAddress?] at hl
  rw [variableAddress?] at h
  rw [value, resolve, known?, hp, hl, h]
  rfl

@[simp] theorem value_name (r : Rom) (s : Register) : r.value s.name = BitVec.ofNat 16 s.cell :=
  value_of_predefined (MemoryMap.lookup_predefined_name s)

theorem labelAddress?_eq_none_iff {code : List Instruction} {name : String} :
    (link code).labelAddress? name = none ↔ name ∉ Instruction.labels code := by
  constructor
  · intro h hm
    rw [← map_fst_labelsFrom 0 code] at hm
    obtain ⟨e, he, rfl⟩ := List.mem_map.1 hm
    have hne := List.lookup_eq_none_iff.1 h e he
    simp at hne
  · intro h
    exact lookup_labelsFrom_eq_none h

theorem known?_eq_none_iff {code : List Instruction} {name : String} :
    known? (labelsFrom 0 code) name = none ↔
      MemoryMap.predefined.lookup name = none ∧ name ∉ Instruction.labels code := by
  rw [known?, Option.or_eq_none_iff]
  exact and_congr_right fun _ => labelAddress?_eq_none_iff

/-! ## Variables -/

theorem mem_of_lookup {l : List (String × Nat)} {name : String} {c : Nat}
    (h : l.lookup name = some c) : (name, c) ∈ l := by
  obtain ⟨front, back, rfl, -⟩ := List.lookup_eq_some_iff.1 h
  simp

/-- A variable has a cell of its own behind the fixed ones. -/
theorem placeVariables_spec {names : List String} {name : String} {c : Nat}
    (h : (placeVariables names).lookup name = some c) :
    MemoryMap.firstVariable ≤ c ∧ names[c - MemoryMap.firstVariable]? = some name := by
  have hm := List.mk_mem_zipIdx_iff_le_and_getElem?_sub.1 (mem_of_lookup h)
  exact hm

theorem exists_lookup_placeVariables {names : List String} {name : String} (h : name ∈ names) :
    ∃ c, (placeVariables names).lookup name = some c := by
  rw [← Option.isSome_iff_exists, ← Option.ne_none_iff_isSome]
  intro hn
  obtain ⟨i, hi⟩ := List.mem_iff_getElem?.1 h
  have he := List.lookup_eq_none_iff.1 hn (name, MemoryMap.firstVariable + i)
    (List.mk_mem_zipIdx_iff_le_and_getElem?_sub.2 ⟨by omega, by simpa using hi⟩)
  simp at he

theorem variableAddress?_injective {code : List Instruction} {x y : String} {c : Nat}
    (hx : (link code).variableAddress? x = some c) (hy : (link code).variableAddress? y = some c) :
    x = y := by
  have h := (placeVariables_spec hx).2
  rw [(placeVariables_spec hy).2] at h
  exact (Option.some.inj h).symm

/-- A symbol that a program uses and nothing declares is one of its variables. -/
theorem exists_variableAddress? {code : List Instruction} {name : String}
    (hu : Instruction.load (.symbol name) ∈ code) (hp : MemoryMap.predefined.lookup name = none)
    (hl : (link code).labelAddress? name = none) :
    ∃ c, (link code).variableAddress? name = some c ∧ MemoryMap.firstVariable ≤ c := by
  have hk := known?_eq_none_iff.2 ⟨hp, labelAddress?_eq_none_iff.1 hl⟩
  have hm : name ∈ variableNames (labelsFrom 0 code) code := by
    rw [variableNames, List.mem_eraseDups, List.mem_filter, List.mem_filterMap]
    exact ⟨⟨.load (.symbol name), hu, rfl⟩, by rw [hk]; rfl⟩
  obtain ⟨c, hc⟩ := exists_lookup_placeVariables hm
  exact ⟨c, hc, (placeVariables_spec hc).1⟩

end Rom

/-! ## Names that are not predefined -/

theorem MemoryMap.predefined_letters :
    ∀ e ∈ predefined, '$' ∉ e.1.toList ∧ '.' ∉ e.1.toList := by decide

theorem lookup_predefined_of_mem {name : String} {c : Char} (hc : c = '$' ∨ c = '.')
    (h : c ∈ name.toList) : MemoryMap.predefined.lookup name = none := by
  rw [List.lookup_eq_none_iff]
  intro e he
  have hl := MemoryMap.predefined_letters e he
  have hne : name ≠ e.1 := by
    intro heq
    rw [heq] at h
    rcases hc with rfl | rfl
    · exact hl.1 h
    · exact hl.2 h
  simpa using hne

theorem lookup_predefined_haltLabel : MemoryMap.predefined.lookup haltLabel = none := by decide

theorem dollar_mem_qualify (s : Scope) (label : String) : '$' ∈ (s.qualify label).toList := by
  simp [Scope.qualify]

theorem Scope.qualify_congr {s t : Scope} (h : s.name = t.name) (label : String) :
    s.qualify label = t.qualify label := by
  rw [qualify, qualify, h]

theorem dollar_mem_returnLabel (n : Numbering) (f : String) : '$' ∈ (n.returnLabel f).toList := by
  simp [Numbering.returnLabel]

theorem dollar_mem_trueLabel (n : Numbering) : '$' ∈ n.trueLabel.toList := by
  simp [Numbering.trueLabel]

theorem dollar_mem_endLabel (n : Numbering) : '$' ∈ n.endLabel.toList := by
  simp [Numbering.endLabel]

theorem dot_mem_staticSymbol (unit : String) (i : Nat) : '.' ∈ (staticSymbol unit i).toList := by
  simp [staticSymbol]

/-- A `$` in the symbol of a static comes from the name of its unit. -/
theorem dollar_mem_staticSymbol {unit : String} {i : Nat}
    (h : '$' ∈ (staticSymbol unit i).toList) : '$' ∈ unit.toList := by
  rw [staticSymbol, String.toList_append, String.toList_append, List.mem_append,
    List.mem_append] at h
  rcases h with (h | h) | h
  · exact h
  · exact absurd h (by decide)
  · exact absurd (isDigit_of_mem_decimal h) (by decide)

/-! ## Labels of an expansion -/

@[simp] theorem labels_nil : labels [] = [] := rfl

@[simp] theorem labels_load (a : Address) (code : List Instruction) :
    labels (load a :: code) = labels code := rfl

@[simp] theorem labels_assign (t : Dest) (c : Comp) (code : List Instruction) :
    labels (assign t c :: code) = labels code := rfl

@[simp] theorem labels_branch (c : Comp) (j : Jump) (code : List Instruction) :
    labels (branch c j :: code) = labels code := rfl

@[simp] theorem labels_label (name : String) (code : List Instruction) :
    labels (label name :: code) = name :: labels code := rfl

section

attribute [local simp] labels_append setA setD fetchD followA followD storeD
  storeDThrough put move increment decrement addA subA subFromA negD andA orA notD pushD popD popA
  pushValue pushCell popCell locate pushElement popElement testD jumpTo jumpUnlessZero jumpThrough

namespace Expansion

theorem labels_push (unit : String) (s : Segment) (i : Nat) : labels (push unit s i) = [] := by
  cases s <;> rfl

theorem labels_pop {unit : String} {s : Segment} {i : Nat} {code : List Instruction}
    (h : pop unit s i = .ok code) : labels code = [] := by
  cases s <;> cases h <;> rfl

theorem labels_arithmetic (n : Numbering) (op : ArithmeticOp) :
    ∀ name ∈ labels (arithmetic n op), name = n.trueLabel ∨ name = n.endLabel := by
  cases op <;> simp [arithmetic, binary, unary, comparison]

theorem labels_function (name : String) (locals : Nat) :
    labels (function name locals) = [name] := by
  have h : labels (List.replicate locals (pushValue (0 : Nat))).flatten = [] := by
    induction locals with
    | zero => rfl
    | succ k ih => rw [List.replicate_succ, List.flatten_cons, labels_append, ih]; rfl
  rw [function, labels_label, h]

theorem labels_call (n : Numbering) (name : String) (args : Nat) :
    labels (call n name args) = [n.returnLabel name] := rfl

theorem labels_ret : labels ret = [] := rfl

end Expansion

end

/-- The labels that a command declares are made up, but for the name of a function. -/
theorem Command.labels_expand {c : Command} {p : Place} {n : Numbering} {code : List Instruction}
    (h : c.expand p n = .ok code) {name : String} (hn : name ∈ labels code) :
    '$' ∈ name.toList ∨ ∃ k, c = .function name k := by
  cases c with
  | push s i =>
    cases h
    rw [Expansion.labels_push] at hn
    simp at hn
  | pop s i =>
    rw [Expansion.labels_pop h] at hn
    simp at hn
  | arithmetic op =>
    cases h
    left
    rcases Expansion.labels_arithmetic n op name hn with rfl | rfl
    · exact dollar_mem_trueLabel n
    · exact dollar_mem_endLabel n
  | label l =>
    cases h
    left
    rw [List.mem_singleton.1 hn]
    exact dollar_mem_qualify _ _
  | goto l =>
    cases h
    cases hn
  | ifGoto l =>
    cases h
    cases hn
  | function f k =>
    cases h
    right
    rw [Expansion.labels_function, List.mem_singleton] at hn
    exact ⟨k, by rw [hn]⟩
  | call f k =>
    cases h
    left
    rw [Expansion.labels_call, List.mem_singleton] at hn
    rw [hn]
    exact dollar_mem_returnLabel n f
  | ret =>
    cases h
    rw [Expansion.labels_ret] at hn
    simp at hn

/-! ## Labels of a program -/

theorem labels_quoted (o : Options) (t : String) (code : List Instruction) :
    labels (SourceUnit.quoted o t code) = labels code := by
  rw [SourceUnit.quoted]
  split
  · rfl
  · rfl

theorem mem_labels_instructions {o : Options} {ps : List Piece} {name : String} :
    name ∈ labels (instructions o ps) ↔ ∃ q ∈ ps, name ∈ labels q.code := by
  induction ps with
  | nil => simp [instructions]
  | cons q ps ih =>
    rw [instructions, List.flatMap_cons, labels_append, labels_quoted, List.mem_append]
    rw [instructions] at ih
    rw [ih]
    simp

theorem code_command {s : Site} {n : Numbering} {code : List Instruction}
    (h : s.command.expand s.place n = .ok code) : (Piece.command s n).code = code := by
  rw [Piece.code, h]
  rfl

theorem code_of_command {s : Site} {n : Numbering} {c : Command} {code : List Instruction}
    (hc : s.command = c) (h : c.expand s.place n = .ok code) :
    (Piece.command s n).code = code := code_command (by rw [hc, h])

theorem mem_sites_of_mem_pieces {o : Options} {units : List SourceUnit} {s : Site}
    {n : Numbering} (h : Piece.command s n ∈ pieces o units) : s ∈ sites units := by
  simp only [pieces, List.mem_append] at h
  rcases h with (h | h) | h
  · split at h <;> simp at h
  · obtain ⟨t, ht, k, he⟩ := mem_sitePieces h
    cases he
    exact ht
  · split at h <;> simp at h

theorem exists_mem_pieces {o : Options} {units : List SourceUnit} {s : Site}
    (h : s ∈ sites units) : ∃ n, Piece.command s n ∈ pieces o units := by
  obtain ⟨n, hn⟩ := exists_mem_sitePieces
    (n := firstNumbering (o.bootstrap.appliesTo units.length)) h
  exact ⟨n, by simp [pieces, hn]⟩

namespace Translated

variable {o : Options} {units : List SourceUnit} {p : Program} {name : String}

/-- A label is made up, or names a function of the source. -/
theorem label_cases (h : Translated o units p) (hn : name ∈ labels p.instructions) :
    '$' ∈ name.toList ∨ name = haltLabel ∨
      ∃ s ∈ sites units, ∃ k, s.command = .function name k := by
  rw [h.instructions] at hn
  obtain ⟨q, hq, hm⟩ := mem_labels_instructions.1 hn
  cases q with
  | bootstrap =>
    left
    rw [show name = Numbering.start.returnLabel MemoryMap.entryPoint from List.mem_singleton.1 hm]
    exact dollar_mem_returnLabel _ _
  | halt =>
    right
    left
    exact List.mem_singleton.1 hm
  | command s n =>
    have hs := mem_sites_of_mem_pieces hq
    obtain ⟨code, hc⟩ := Command.exists_expand (h.accepted hs).inRange s.place n
    rw [code_command hc] at hm
    rcases Command.labels_expand hc hm with hd | ⟨k, hk⟩
    · exact .inl hd
    · exact .inr (.inr ⟨s, hs, k, hk⟩)

/-- The name of a function is a label. -/
theorem mem_labels_of_function (h : Translated o units p) {s : Site} (hs : s ∈ sites units)
    {k : Nat} (hk : s.command = .function name k) : name ∈ labels p.instructions := by
  obtain ⟨n, hn⟩ := exists_mem_pieces (o := o) hs
  rw [h.instructions]
  refine mem_labels_instructions.2 ⟨_, hn, ?_⟩
  rw [Piece.code, hk]
  show name ∈ labels (Expansion.function name k)
  rw [Expansion.labels_function]
  exact List.mem_singleton_self name

end Translated

end HackVM
