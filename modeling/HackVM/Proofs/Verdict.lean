import HackVM.Proofs.Numbering

/-!
# Which error is reported

The checks of a translation in the order in which they decide: that there are units, that their
names are distinct, unit after unit its name and then its lines, and the labels of the whole
program last. The first check that fails is what is reported, and a bad line is reported with
its number in the source and what is kept of it. If no check fails, there is a program, with one
fragment for each source line.
-/

namespace HackVM

open Assembly Instruction Text

/-! ## The first bad line -/

/-- Line `i`, counted from zero, is the first on which something is kept that is no command:
`text` is what is kept of it, and `cause` what is wrong with that. -/
structure FirstBadLine (lines : List (List Char)) (i : Nat) (text : String)
    (cause : CommandError) : Prop where
  line : ∃ line, lines[i]? = some line ∧ trim (SourceLine.code line) = text.toList
  kept : text.toList ≠ []
  read : Command.read text = .error cause
  first : ∀ j < i, ∀ line, lines[j]? = some line → trim (SourceLine.code line) ≠ [] →
    ∃ c, Command.read (String.ofList (trim (SourceLine.code line))) = .ok c

namespace SourceUnit

/-- The error of a source line that holds no command. -/
def lineFault? (unit : String) (l : SourceLine) : Option TranslateError :=
  match Command.read l.text with
  | .ok _ => none
  | .error cause => some (.command ⟨unit, l.number⟩ l.text cause)

/-- The first error of a unit by itself. -/
def fault? (u : SourceUnit) : Option TranslateError :=
  if isSymbol u.name then (SourceLine.ofText u.source).findSome? (lineFault? u.name)
  else some (.invalidUnitName u.name)

theorem lineFault?_eq_none_iff {unit : String} {l : SourceLine} :
    lineFault? unit l = none ↔ ∃ c, Command.read l.text = .ok c := by
  rw [lineFault?]
  cases Command.read l.text with
  | ok c => simp
  | error e => simp

theorem lineFault?_eq_some_iff {unit : String} {l : SourceLine} {e : TranslateError} :
    lineFault? unit l = some e ↔
      ∃ cause, Command.read l.text = .error cause ∧ e = .command ⟨unit, l.number⟩ l.text cause := by
  rw [lineFault?]
  cases Command.read l.text with
  | ok c => simp
  | error cause => simp [eq_comm]

end SourceUnit

section

variable {line : List Char} {lines : List (List Char)} {text : String} {cause : CommandError}

/-- A line that holds no command is the first bad one, and no other is. -/
theorem firstBadLine_cons_iff_of_error {i : Nat} {kept : String} {e : CommandError}
    (ht : trim (SourceLine.code line) = kept.toList) (hk : kept.toList ≠ [])
    (hr : Command.read kept = .error e) :
    FirstBadLine (line :: lines) i text cause ↔ i = 0 ∧ text = kept ∧ cause = e := by
  constructor
  · intro hb
    cases i with
    | zero =>
      obtain ⟨l, hl, hlt⟩ := hb.line
      cases hl
      obtain rfl : text = kept := String.toList_inj.1 (hlt.symm.trans ht)
      rw [hb.read] at hr
      cases hr
      exact ⟨rfl, rfl, rfl⟩
    | succ j =>
      obtain ⟨c, hc⟩ := hb.first 0 (Nat.succ_pos j) line rfl (ht ▸ hk)
      rw [ht, String.ofList_toList, hr] at hc
      cases hc
  · intro h
    obtain ⟨rfl, rfl, rfl⟩ := h
    exact ⟨⟨line, rfl, ht⟩, hk, hr, fun j hj => absurd hj (Nat.not_lt_zero j)⟩

/-- A line that is blank or holds a command is not the first bad one. -/
theorem firstBadLine_cons_iff {i : Nat}
    (h : trim (SourceLine.code line) ≠ [] →
      ∃ c, Command.read (String.ofList (trim (SourceLine.code line))) = .ok c) :
    FirstBadLine (line :: lines) i text cause ↔
      ∃ j, i = j + 1 ∧ FirstBadLine lines j text cause := by
  constructor
  · intro hb
    cases i with
    | zero =>
      obtain ⟨l, hl, ht⟩ := hb.line
      cases hl
      have hk := hb.kept
      rw [ht, String.ofList_toList] at h
      obtain ⟨c, hc⟩ := h hk
      rw [hb.read] at hc
      cases hc
    | succ j =>
      exact ⟨j, rfl, hb.line, hb.kept, hb.read, fun k hk => hb.first (k + 1) (Nat.succ_lt_succ hk)⟩
  · intro hb
    obtain ⟨j, rfl, hj⟩ := hb
    refine ⟨hj.line, hj.kept, hj.read, ?_⟩
    intro k hk l hl
    cases k with
    | zero =>
      cases hl
      exact h
    | succ k => exact hj.first k (Nat.lt_of_succ_lt_succ hk) l hl

end

/-- The first fault of source lines is that of the first bad line of the text. -/
theorem findSome?_lineFault?_iff {unit : String} {n : Nat} {lines : List (List Char)}
    {e : TranslateError} :
    ((lines.zipIdx n).filterMap fun l => SourceLine.ofLine? l.2 l.1).findSome?
        (SourceUnit.lineFault? unit) = some e ↔
      ∃ i text cause, FirstBadLine lines i text cause ∧
        e = .command ⟨unit, n + i⟩ text cause := by
  induction lines generalizing n with
  | nil =>
    constructor
    · intro h
      cases h
    · intro h
      obtain ⟨i, text, cause, hb, -⟩ := h
      obtain ⟨l, hl, -⟩ := hb.line
      cases hl
  | cons line lines ih =>
    -- If nothing is wrong with the first line, the lines behind it decide.
    have hpass (h : trim (SourceLine.code line) ≠ [] →
        ∃ c, Command.read (String.ofList (trim (SourceLine.code line))) = .ok c) :
        ((lines.zipIdx (n + 1)).filterMap fun l => SourceLine.ofLine? l.2 l.1).findSome?
            (SourceUnit.lineFault? unit) = some e ↔
          ∃ i text cause, FirstBadLine (line :: lines) i text cause ∧
            e = .command ⟨unit, n + i⟩ text cause := by
      rw [ih]
      constructor
      · intro h'
        obtain ⟨i, text, cause, hb, he⟩ := h'
        exact ⟨i + 1, text, cause, (firstBadLine_cons_iff h).2 ⟨i, rfl, hb⟩,
          by rw [he, Nat.add_right_comm, Nat.add_assoc]⟩
      · intro h'
        obtain ⟨i, text, cause, hb, he⟩ := h'
        obtain ⟨j, rfl, hj⟩ := (firstBadLine_cons_iff h).1 hb
        exact ⟨j, text, cause, hj, by rw [he, Nat.add_right_comm, Nat.add_assoc]⟩
    rw [List.zipIdx_cons, List.filterMap_cons]
    cases hl : SourceLine.ofLine? n line with
    | none =>
      refine hpass fun hne => absurd hl ?_
      simp [SourceLine.ofLine?, hne]
    | some l =>
      obtain ⟨rfl, ht, hne⟩ := SourceLine.ofLine?_eq_some_iff.1 hl
      rw [List.findSome?_cons]
      cases hr : Command.read l.text with
      | ok c =>
        rw [SourceUnit.lineFault?_eq_none_iff.2 ⟨c, hr⟩]
        exact hpass fun _ => ⟨c, by rw [← ht, String.ofList_toList, hr]⟩
      | error cause =>
        have hf : SourceUnit.lineFault? unit l = some (.command ⟨unit, l.number⟩ l.text cause) :=
          SourceUnit.lineFault?_eq_some_iff.2 ⟨cause, hr, rfl⟩
        rw [hf]
        constructor
        · intro he
          cases he
          exact ⟨0, l.text, cause,
            (firstBadLine_cons_iff_of_error ht.symm (ht ▸ hne) hr).2 ⟨rfl, rfl, rfl⟩, rfl⟩
        · intro h
          obtain ⟨i, text, cause', hb, he⟩ := h
          obtain ⟨rfl, rfl, rfl⟩ := (firstBadLine_cons_iff_of_error ht.symm (ht ▸ hne) hr).1 hb
          rw [he]
          rfl

/-! ## The first bad unit -/

namespace SourceUnit

/-- There is nothing against the unit by itself. -/
structure Faultless (u : SourceUnit) : Prop where
  isSymbol_name : isSymbol u.name = true
  read : ∀ l ∈ SourceLine.ofText u.source, ∃ c, Command.read l.text = .ok c

variable {u : SourceUnit} {e : TranslateError}

theorem fault?_eq_none_iff : u.fault? = none ↔ u.Faultless := by
  rw [fault?]
  by_cases hn : isSymbol u.name
  · rw [if_pos hn, List.findSome?_eq_none_iff]
    constructor
    · intro h
      exact ⟨hn, fun l hl => lineFault?_eq_none_iff.1 (h l hl)⟩
    · intro h l hl
      exact lineFault?_eq_none_iff.2 (h.read l hl)
  · rw [if_neg hn]
    constructor
    · intro h
      cases h
    · intro h
      exact absurd h.isSymbol_name hn

theorem fault?_of_name (h : isSymbol u.name = false) :
    u.fault? = some (.invalidUnitName u.name) := by
  simp [fault?, h]

/-- If its name is a symbol, a unit fails at its first bad line. -/
theorem fault?_eq_some_iff (h : isSymbol u.name = true) :
    u.fault? = some e ↔
      ∃ i text cause, FirstBadLine (lines u.source.toList) i text cause ∧
        e = .command ⟨u.name, i + 1⟩ text cause := by
  rw [fault?, if_pos h, SourceLine.ofText, findSome?_lineFault?_iff]
  simp only [Nat.add_comm 1]

theorem translateLines_of_findSome? {unit : String} {ls : List SourceLine}
    (h : ls.findSome? (lineFault? unit) = some e) (o : Options) (s : Progress) :
    (translateLines o unit s ls).1 = .error e := by
  induction ls generalizing s with
  | nil => cases h
  | cons l ls ih =>
    rw [List.findSome?_cons] at h
    cases hc : Command.read l.text with
    | error cause =>
      rw [lineFault?_eq_some_iff.2 ⟨cause, hc, rfl⟩] at h
      cases h
      rw [translateLines, translateLine_of_read_error hc]
    | ok c =>
      rw [lineFault?_eq_none_iff.2 ⟨c, hc⟩] at h
      obtain ⟨f, hf⟩ := translateLine_of_read hc o unit s
      rw [translateLines, hf]
      show Except.map _ (translateLines o unit _ ls).1 = _
      rw [ih h]
      rfl

theorem translate_of_fault? (h : u.fault? = some e) (o : Options) (n : Numbering) :
    (u.translate o n).1 = .error e := by
  by_cases hn : isSymbol u.name
  · rw [fault?, if_pos hn] at h
    rw [translate, if_pos hn]
    exact translateLines_of_findSome? h o ⟨.unit u.name, n⟩
  · rw [fault?, if_neg hn] at h
    cases h
    rw [translate, if_neg hn]

end SourceUnit

open SourceUnit

theorem translateUnits_of_findSome? {units : List SourceUnit} {e : TranslateError}
    (h : units.findSome? fault? = some e) (o : Options) (n : Numbering) :
    translateUnits o n units = .error e := by
  induction units generalizing n with
  | nil => cases h
  | cons u units ih =>
    rw [List.findSome?_cons] at h
    cases hu : u.fault? with
    | some e' =>
      rw [hu] at h
      cases h
      exact translateUnits_cons_of_error (translate_of_fault? hu o n)
    | none =>
      rw [hu] at h
      have hs := fault?_eq_none_iff.1 hu
      obtain ⟨fs, hfs⟩ := exists_fragments hs.isSymbol_name hs.read o n
      rw [translateUnits_cons hfs, ih h]
      rfl

/-- What is wrong with the units before their labels are compared. -/
def unitsFault? (units : List SourceUnit) : Option TranslateError :=
  if units.isEmpty then some .noUnits
  else ((firstRepeated (units.map (·.name))).map .duplicateUnit).or (units.findSome? fault?)

theorem readable_of_unitsFault? {units : List SourceUnit} (h : unitsFault? units = none) :
    Readable units := by
  rw [unitsFault?] at h
  by_cases he : units.isEmpty
  · rw [if_pos he] at h
    cases h
  · rw [if_neg he, Option.or_eq_none_iff, Option.map_eq_none_iff] at h
    have hs : ∀ u ∈ units, u.Faultless := fun u hu =>
      fault?_eq_none_iff.1 (List.findSome?_eq_none_iff.1 h.2 u hu)
    exact ⟨by simpa using he, firstRepeated_eq_none_iff.1 h.1,
      fun u hu => (hs u hu).isSymbol_name, fun u hu => (hs u hu).read⟩

theorem translate_of_unitsFault? {units : List SourceUnit} {e : TranslateError}
    (h : unitsFault? units = some e) (o : Options) : translate o units = .error e := by
  rw [unitsFault?] at h
  rw [translate]
  by_cases he : units.isEmpty
  · rw [if_pos he] at h ⊢
    cases h
    rfl
  · rw [if_neg he] at h ⊢
    cases hd : firstRepeated (units.map (·.name)) with
    | some name =>
      rw [hd] at h
      cases h
      rfl
    | none =>
      rw [hd] at h
      show Except.bind (translateUnits o _ units) _ = _
      rw [translateUnits_of_findSome? h]
      rfl

/-! ## All checks together -/

/-- What the translation of units has to answer. Each answer but the last names the first thing
that is wrong, and says that everything checked before it is right. -/
inductive Verdict (o : Options) (units : List SourceUnit) :
    Except TranslateError Program → Prop
  | noUnits : units = [] → Verdict o units (.error .noUnits)
  | duplicateUnit {front back : List String} {name : String} :
    units.map (·.name) = front ++ name :: back → name ∈ front → front.Nodup →
    Verdict o units (.error (.duplicateUnit name))
  | invalidUnitName {front back : List SourceUnit} {u : SourceUnit} :
    (units.map (·.name)).Nodup → units = front ++ u :: back → (∀ v ∈ front, v.Faultless) →
    isSymbol u.name = false → Verdict o units (.error (.invalidUnitName u.name))
  | command {front back : List SourceUnit} {u : SourceUnit} {i : Nat} {text : String}
      {cause : CommandError} :
    (units.map (·.name)).Nodup → units = front ++ u :: back → (∀ v ∈ front, v.Faultless) →
    isSymbol u.name = true → FirstBadLine (lines u.source.toList) i text cause →
    Verdict o units (.error (.command ⟨u.name, i + 1⟩ text cause))
  | duplicateLabel {front back : List String} {name : String} :
    Readable units → labels (instructions o (pieces o units)) = front ++ name :: back →
    name ∈ front → front.Nodup → Verdict o units (.error (.duplicateLabel name))
  | ok :
    Readable units → (labels (instructions o (pieces o units))).Nodup →
    Verdict o units (.ok ⟨instructions o (pieces o units), o.bootstrap.appliesTo units.length⟩)

/-- With distinct names the first bad unit decides. -/
theorem unitsFault?_of_fault? {front back : List SourceUnit} {u : SourceUnit}
    {e : TranslateError} (hd : ((front ++ u :: back).map (·.name)).Nodup)
    (hf : ∀ v ∈ front, v.Faultless) (hu : u.fault? = some e) :
    unitsFault? (front ++ u :: back) = some e := by
  have he : (front ++ u :: back).isEmpty = false := by simp
  rw [unitsFault?, he, firstRepeated_eq_none_iff.2 hd, List.findSome?_append, List.findSome?_cons,
    hu, List.findSome?_eq_none_iff.2 fun v hv => fault?_eq_none_iff.2 (hf v hv)]
  rfl

theorem unitsFault?_of_duplicate {units : List SourceUnit} {name : String}
    (h : firstRepeated (units.map (·.name)) = some name) :
    unitsFault? units = some (.duplicateUnit name) := by
  cases units with
  | nil => cases h
  | cons u us =>
    rw [unitsFault?, h]
    rfl

theorem translate_of_verdict {o : Options} {units : List SourceUnit}
    {result : Except TranslateError Program} (h : Verdict o units result) :
    translate o units = result := by
  cases h with
  | noUnits he =>
    rw [he]
    exact translate_nil o
  | duplicateUnit hn hm hd =>
    have hr := firstRepeated_eq_some_iff.2 ⟨_, _, hn, hm, hd⟩
    exact translate_of_unitsFault? (unitsFault?_of_duplicate hr) o
  | invalidUnitName hd hu hf hn =>
    subst hu
    exact translate_of_unitsFault? (unitsFault?_of_fault? hd hf (fault?_of_name hn)) o
  | command hd hu hf hn hb =>
    subst hu
    have hc := (fault?_eq_some_iff hn).2 ⟨_, _, _, hb, rfl⟩
    exact translate_of_unitsFault? (unitsFault?_of_fault? hd hf hc) o
  | duplicateLabel hr hl hm hd =>
    rw [translate_of_readable hr, firstRepeated_eq_some_iff.2 ⟨_, _, hl, hm, hd⟩]
  | ok hr hl => rw [translate_of_readable hr, firstRepeated_eq_none_iff.2 hl]

theorem exists_verdict (o : Options) (units : List SourceUnit) :
    ∃ result, Verdict o units result := by
  by_cases hne : units = []
  · exact ⟨_, .noUnits hne⟩
  cases hd : firstRepeated (units.map (·.name)) with
  | some name =>
    obtain ⟨front, back, hn, hm, hf⟩ := firstRepeated_eq_some_iff.1 hd
    exact ⟨_, .duplicateUnit hn hm hf⟩
  | none =>
    have hnd := firstRepeated_eq_none_iff.1 hd
    cases hu : units.findSome? fault? with
    | some e =>
      obtain ⟨front, u, back, hs, hue, hf⟩ := List.findSome?_eq_some_iff.1 hu
      have hf : ∀ v ∈ front, v.Faultless := fun v hv => fault?_eq_none_iff.1 (hf v hv)
      by_cases hn : isSymbol u.name = true
      · obtain ⟨i, text, cause, hb, -⟩ := (fault?_eq_some_iff hn).1 hue
        exact ⟨_, .command hnd hs hf hn hb⟩
      · exact ⟨_, .invalidUnitName hnd hs hf (Bool.eq_false_iff.2 hn)⟩
    | none =>
      have hr : Readable units := readable_of_unitsFault? (by simp [unitsFault?, hne, hd, hu])
      cases hl : firstRepeated (labels (instructions o (pieces o units))) with
      | some name =>
        obtain ⟨front, back, hn, hm, hf⟩ := firstRepeated_eq_some_iff.1 hl
        exact ⟨_, .duplicateLabel hr hn hm hf⟩
      | none => exact ⟨_, .ok hr (firstRepeated_eq_none_iff.1 hl)⟩

/-! ## Fragments -/

/-- A fragment for each source line, with its place and its text. -/
def Covers (u : SourceUnit) (fs : List Fragment) : Prop :=
  fs.map (fun f => (f.location, f.text)) =
    (SourceLine.ofText u.source).map fun l => (⟨u.name, l.number⟩, l.text)

/-- Units are translated by translating each of them. -/
theorem exists_fragments_of_translateUnits {o : Options} {n : Numbering} {units : List SourceUnit}
    {fs : List Fragment} (h : translateUnits o n units = .ok fs) :
    ∃ fss : List (List Fragment), fs = fss.flatten ∧
      (translateEach o n units).map (·.1) = fss.map .ok ∧ List.Forall₂ Covers units fss := by
  induction units generalizing n fs with
  | nil =>
    cases h
    exact ⟨[], rfl, rfl, .nil⟩
  | cons u units ih =>
    cases hu : (u.translate o n).1 with
    | error e =>
      rw [translateUnits_cons_of_error hu] at h
      cases h
    | ok gs =>
      rw [translateUnits_cons hu] at h
      cases hr : translateUnits o (u.translate o n).2 units with
      | error e => simp [hr, Except.map] at h
      | ok rest =>
        simp only [hr, Except.map, Except.ok.injEq] at h
        obtain ⟨fss, rfl, he, hc⟩ := ih hr
        have hg : Covers u gs := by
          rw [SourceUnit.translate, if_pos (translate_eq_pieces hu).1] at hu
          exact translateLines_eq_ok hu
        exact ⟨gs :: fss, h.symm, by rw [translateEach, List.map_cons, hu, he]; rfl, .cons hg hc⟩

/-- The first error is what is reported, and there is a program if there is none. A command that
is read has an expansion, so that only reading fails; and each unit of a program has become one
fragment for each of its source lines. -/
theorem translate_eq_iff_verdict (o : Options) (units : List SourceUnit) :
    (∀ result, translate o units = result ↔ Verdict o units result) ∧
      (∀ text c, Command.read text = .ok c → ∀ place n, ∃ code, c.expand place n = .ok code) ∧
      ∀ p, translate o units = .ok p →
        ∃ fss : List (List Fragment), p = assemble o p.hasBootstrap fss.flatten ∧
          (translateEach o (firstNumbering p.hasBootstrap) units).map (·.1) = fss.map .ok ∧
          List.Forall₂ Covers units fss := by
  refine ⟨?_, ?_, ?_⟩
  · intro result
    constructor
    · intro h
      obtain ⟨found, hv⟩ := exists_verdict o units
      rw [← h, translate_of_verdict hv]
      exact hv
    · exact translate_of_verdict
  · intro text c hc place n
    exact Command.exists_expand (Command.inRange_of_read hc) place n
  · intro p h
    obtain ⟨-, ⟨fs, hf, hp⟩, -⟩ := translate_eq_ok h
    obtain ⟨fss, rfl, he, hc⟩ := exists_fragments_of_translateUnits hf
    exact ⟨fss, hp, he, hc⟩

/-- A unit with a bad command on its fourth line. -/
def misspeltUnit : SourceUnit := ⟨"B", "// two\npush constant 1\n\n push heap 2 // which?\nadd"⟩

/-- The fourth line is reported, with what is kept of it, and not the bad name of the next unit. -/
theorem verdict_of_misspeltUnit :
    translate .default [⟨"A", "add"⟩, misspeltUnit, ⟨"1C", "pop"⟩] =
        .error (.command ⟨"B", 4⟩ "push heap 2" (.unknownSegment "heap")) ∧
      (∃ code, (Command.push .constant 1).expand ⟨"A", .unit "A"⟩ .start = .ok code) ∧
      ∃ (p : Program) (fs : List Fragment), translate .default [⟨"A", "// one\nadd"⟩] = .ok p ∧
        Covers ⟨"A", "// one\nadd"⟩ fs := by
  refine ⟨?_, ?_, ?_⟩
  · have hn : isSymbol misspeltUnit.name = true := by decide
    have hf : misspeltUnit.fault? =
        some (.command ⟨"B", 4⟩ "push heap 2" (.unknownSegment "heap")) := by decide
    have hs : Faultless ⟨"A", "add"⟩ := fault?_eq_none_iff.1 (by decide)
    obtain ⟨i, text, cause, hb, he⟩ := (fault?_eq_some_iff hn).1 hf
    have hu : [⟨"A", "add"⟩, misspeltUnit, ⟨"1C", "pop"⟩] =
        [⟨"A", "add"⟩] ++ misspeltUnit :: [⟨"1C", "pop"⟩] := rfl
    rw [he]
    refine ((translate_eq_iff_verdict _ _).1 _).2 (.command (by decide) hu ?_ hn hb)
    intro v hv
    rwa [List.mem_singleton.1 hv]
  · exact (translate_eq_iff_verdict .default []).2.1 "push constant 1" _ (by rfl) _ _
  · obtain ⟨p, hp⟩ : ∃ p, translate .default [⟨"A", "// one\nadd"⟩] = .ok p := ⟨_, rfl⟩
    obtain ⟨fss, -, -, hc⟩ := (translate_eq_iff_verdict _ _).2.2 p hp
    cases hc with
    | cons hc _ => exact ⟨p, _, hp, hc⟩

end HackVM
