import HackVM.Proofs.Spelling
import Mathlib.Data.List.Duplicate

/-!
# Labels that are declared twice

Units whose lines are all commands are translated, unless two of their labels are spelt alike.
The labels of a program come from its functions, its label commands, its calls and comparisons,
and the halt loop. Calls and comparisons are numbered, so none of their labels repeats. If the
names of the source are plain, labels of different origin are never spelt alike, and only the
source itself can declare a label twice: a function twice in the program, or a label twice in
scopes of one name.
-/

namespace HackVM

open Assembly Instruction Sequence Text

/-! ## Units that can be read -/

/-- Units with nothing against them but perhaps their labels: there are some, their names are
distinct symbols, and each of their source lines is a command. -/
structure Readable (units : List SourceUnit) : Prop where
  ne_nil : units ≠ []
  names_nodup : (units.map (·.name)).Nodup
  isSymbol_name : ∀ u ∈ units, isSymbol u.name = true
  read : ∀ u ∈ units, ∀ l ∈ SourceLine.ofText u.source, ∃ c, Command.read l.text = .ok c

theorem readable_iff {units : List SourceUnit} :
    Readable units ↔ units ≠ [] ∧ (units.map (·.name)).Nodup ∧
      (∀ u ∈ units, isSymbol u.name = true) ∧
      ∀ u ∈ units, ∀ l ∈ SourceLine.ofText u.source, (Command.read l.text).isOk = true := by
  have hok : ∀ t, (∃ c, Command.read t = .ok c) ↔ (Command.read t).isOk = true := by
    intro t
    cases Command.read t with
    | ok c => exact ⟨fun _ => rfl, fun _ => ⟨c, rfl⟩⟩
    | error e =>
      constructor
      · rintro ⟨c, hc⟩
        cases hc
      · intro he
        cases he
  simp only [← hok]
  exact ⟨fun h => ⟨h.ne_nil, h.names_nodup, h.isSymbol_name, h.read⟩,
    fun ⟨hn, hd, hs, hr⟩ => ⟨hn, hd, hs, hr⟩⟩

instance (units : List SourceUnit) : Decidable (Readable units) :=
  decidable_of_iff' _ readable_iff

namespace SourceUnit

theorem translateLine_of_read {l : SourceLine} {c : Command} (h : Command.read l.text = .ok c)
    (o : Options) (unit : String) (s : Progress) :
    ∃ f, translateLine o unit s l = .ok (f, (s.enter c).pass c) := by
  obtain ⟨code, hc⟩ := Command.exists_expand (Command.inRange_of_read h)
    ⟨unit, (s.enter c).scope⟩ (s.enter c).numbering
  refine ⟨⟨⟨unit, l.number⟩, l.text, quoted o l.text code⟩, ?_⟩
  rw [translateLine, h]
  show ((c.expand ⟨unit, (s.enter c).scope⟩ (s.enter c).numbering).mapError _).bind _ = _
  rw [hc]
  rfl

theorem exists_translateLines {ls : List SourceLine}
    (h : ∀ l ∈ ls, ∃ c, Command.read l.text = .ok c) (o : Options) (unit : String) (s : Progress) :
    ∃ fs, (translateLines o unit s ls).1 = .ok fs := by
  induction ls generalizing s with
  | nil => exact ⟨[], rfl⟩
  | cons l ls ih =>
    obtain ⟨c, hc⟩ := h l (by simp)
    obtain ⟨f, hf⟩ := translateLine_of_read hc o unit s
    obtain ⟨fs, hfs⟩ := ih (fun k hk => h k (by simp [hk])) ((s.enter c).pass c)
    refine ⟨f :: fs, ?_⟩
    rw [translateLines, hf]
    show Except.map _ (translateLines o unit ((s.enter c).pass c) ls).1 = _
    rw [hfs]
    rfl

theorem exists_fragments {u : SourceUnit} (hs : isSymbol u.name = true)
    (hr : ∀ l ∈ SourceLine.ofText u.source, ∃ c, Command.read l.text = .ok c)
    (o : Options) (n : Numbering) : ∃ fs, (u.translate o n).1 = .ok fs := by
  rw [translate, if_pos hs]
  exact exists_translateLines hr o u.name ⟨.unit u.name, n⟩

end SourceUnit

theorem exists_translateUnits {units : List SourceUnit}
    (hs : ∀ u ∈ units, isSymbol u.name = true)
    (hr : ∀ u ∈ units, ∀ l ∈ SourceLine.ofText u.source, ∃ c, Command.read l.text = .ok c)
    (o : Options) (n : Numbering) : ∃ fs, translateUnits o n units = .ok fs := by
  induction units generalizing n with
  | nil => exact ⟨[], rfl⟩
  | cons u units ih =>
    obtain ⟨fs, hfs⟩ := SourceUnit.exists_fragments (hs u (by simp)) (hr u (by simp)) o n
    obtain ⟨gs, hgs⟩ := ih (fun v hv => hs v (by simp [hv])) (fun v hv => hr v (by simp [hv]))
      (u.translate o n).2
    exact ⟨fs ++ gs, by rw [translateUnits_cons hfs, hgs]; rfl⟩

/-- Readable units are translated if no label repeats, and the first that does is reported. -/
theorem translate_of_readable {units : List SourceUnit} (h : Readable units) (o : Options) :
    translate o units =
      match firstRepeated (labels (instructions o (pieces o units))) with
      | some name => .error (.duplicateLabel name)
      | none => .ok ⟨instructions o (pieces o units), o.bootstrap.appliesTo units.length⟩ := by
  obtain ⟨fs, hfs⟩ := exists_translateUnits h.isSymbol_name h.read o
    (firstNumbering (o.bootstrap.appliesTo units.length))
  have hi := instructions_assemble (translateUnits_eq_instructions hfs).2
  have hp : assemble o (o.bootstrap.appliesTo units.length) fs =
      ⟨instructions o (pieces o units), o.bootstrap.appliesTo units.length⟩ := by
    rw [← hi]
    rfl
  have he : units.isEmpty = false := by
    simpa using h.ne_nil
  rw [translate, he, firstRepeated_eq_none_iff.2 h.names_nodup]
  show Except.bind (translateUnits o _ units) _ = _
  rw [hfs]
  simp only [Except.bind, hp]
  cases firstRepeated (labels (instructions o (pieces o units))) <;> rfl

theorem exists_translate {units : List SourceUnit} (h : Readable units) {o : Options}
    (hn : (labels (instructions o (pieces o units))).Nodup) : ∃ p, translate o units = .ok p := by
  rw [translate_of_readable h, firstRepeated_eq_none_iff.2 hn]
  exact ⟨_, rfl⟩

/-- Readable units are rejected only for a label that is declared twice. -/
theorem duplicate_of_translate {units : List SourceUnit} (h : Readable units) {o : Options}
    {name : String} (he : translate o units = .error (.duplicateLabel name)) :
    List.Duplicate name (labels (instructions o (pieces o units))) := by
  rw [translate_of_readable h] at he
  cases hr : firstRepeated (labels (instructions o (pieces o units))) with
  | none =>
    rw [hr] at he
    cases he
  | some found =>
    rw [hr] at he
    cases he
    obtain ⟨front, back, hl, hm, -⟩ := firstRepeated_eq_some_iff.1 hr
    rw [hl]
    obtain ⟨x, y, rfl⟩ := List.append_of_mem hm
    rw [List.duplicate_iff_two_le_count]
    simp
    omega

theorem exists_translate_error {units : List SourceUnit} (h : Readable units) {o : Options}
    (hn : ¬ (labels (instructions o (pieces o units))).Nodup) :
    ∃ name, translate o units = .error (.duplicateLabel name) := by
  cases hr : firstRepeated (labels (instructions o (pieces o units))) with
  | none => exact absurd (firstRepeated_eq_none_iff.1 hr) hn
  | some name =>
    refine ⟨name, ?_⟩
    rw [translate_of_readable h, hr]

/-! ## Where the labels of a program come from -/

namespace LabelOrigin

def function? : LabelOrigin → Option String
  | entry f => some f
  | _ => none

def qualified? : LabelOrigin → Option (String × String)
  | qualified s l => some (s, l)
  | _ => none

/-- Whether the label is none of the source. -/
def isInvented : LabelOrigin → Bool
  | numbered .. | halt => true
  | entry _ | qualified .. => false

/-- The label is of the source, or has a number that is not taken before `n`. -/
def Beyond (n : Numbering) : LabelOrigin → Prop
  | numbered _ word k => if word = "ret" then n.calls < k else n.comparisons < k
  | halt => False
  | entry _ | qualified .. => True

end LabelOrigin

open LabelOrigin

def Site.origins (s : Site) (n : Numbering) : List LabelOrigin :=
  match s.command with
  | .function f _ => [entry f]
  | .label l => [qualified s.place.scope.name l]
  | .call f _ => [returning n f]
  | .arithmetic op => if op.comparison?.isSome then [onTrue n, atEnd n] else []
  | _ => []

def Piece.origins : Piece → List LabelOrigin
  | bootstrap => [returning .start MemoryMap.entryPoint]
  | command s n => s.origins n
  | halt => [.halt]

/-- What the labels of pieces are made from, in order. -/
def origins (ps : List Piece) : List LabelOrigin := ps.flatMap Piece.origins

/-- In front of the labels of the sites is that of the bootstrap, or behind them the halt loop. -/
theorem origins_pieces (o : Options) (units : List SourceUnit) :
    origins (pieces o units) =
      if o.bootstrap.appliesTo units.length then
        returning .start MemoryMap.entryPoint ::
          origins (sitePieces (firstNumbering true) (sites units))
      else origins (sitePieces (firstNumbering false) (sites units)) ++ [.halt] := by
  cases hb : o.bootstrap.appliesTo units.length <;>
    simp [pieces, origins, Piece.origins, hb]

theorem labels_code (q : Piece) : labels q.code = q.origins.map LabelOrigin.text := by
  cases q with
  | bootstrap =>
    show _ = [(returning .start MemoryMap.entryPoint).text]
    rw [text_returning]
    rfl
  | halt => rfl
  | command s n =>
    obtain ⟨place, t, c⟩ := s
    cases c with
    | push seg i => exact Expansion.labels_push place.unit seg i
    | pop seg i => cases seg <;> rfl
    | arithmetic op => cases op <;> rfl
    | label l => rfl
    | goto l => rfl
    | ifGoto l => rfl
    | function f k => exact Expansion.labels_function f k
    | call f k =>
      show _ = [(returning n f).text]
      rw [text_returning]
      rfl
    | ret => rfl

theorem labels_instructions (o : Options) (ps : List Piece) :
    labels (instructions o ps) = (origins ps).map LabelOrigin.text := by
  induction ps with
  | nil => rfl
  | cons q ps ih =>
    rw [instructions, List.flatMap_cons, labels_append, labels_quoted, labels_code, origins,
      List.flatMap_cons, List.map_append]
    exact congrArg _ ih

/-- The functions that the source declares, in order. -/
def functionNames (units : List SourceUnit) : List String :=
  (sites units).filterMap fun s =>
    match s.command with
    | .function f _ => some f
    | _ => none

/-- The labels that the source declares, in order, each with the name of its scope. -/
def scopedLabels (units : List SourceUnit) : List (String × String) :=
  (sites units).filterMap fun s =>
    match s.command with
    | .label l => some (s.place.scope.name, l)
    | _ => none

theorem filterMap_cons_toList {α β : Type} (f : α → Option β) (a : α) (l : List α) :
    (a :: l).filterMap f = (f a).toList ++ l.filterMap f := by
  rw [List.filterMap_cons]
  cases f a <;> rfl

/-- What a filter finds at the sites it finds in their origins. -/
theorem filterMap_origins_sitePieces {α : Type} {f : LabelOrigin → Option α}
    {g : Site → Option α} (hfg : ∀ s n, (s.origins n).filterMap f = (g s).toList)
    (n : Numbering) (ss : List Site) :
    (origins (sitePieces n ss)).filterMap f = ss.filterMap g := by
  induction ss generalizing n with
  | nil => rfl
  | cons s ss ih =>
    rw [sitePieces, origins, List.flatMap_cons, List.filterMap_append]
    show (s.origins n).filterMap f ++ (origins (sitePieces (n.after s.command) ss)).filterMap f = _
    rw [hfg, ih, filterMap_cons_toList]

theorem filterMap_origins_pieces {α : Type} {f : LabelOrigin → Option α} {g : Site → Option α}
    (hfg : ∀ s n, (s.origins n).filterMap f = (g s).toList) (hh : f .halt = none)
    (hb : f (returning .start MemoryMap.entryPoint) = none) (o : Options)
    (units : List SourceUnit) :
    (origins (pieces o units)).filterMap f = (sites units).filterMap g := by
  rw [origins_pieces]
  split
  · rw [List.filterMap_cons_none hb, filterMap_origins_sitePieces hfg]
  · rw [List.filterMap_append, filterMap_origins_sitePieces hfg, List.filterMap_cons_none hh,
      List.filterMap_nil, List.append_nil]

theorem filterMap_function? (o : Options) (units : List SourceUnit) :
    (origins (pieces o units)).filterMap function? = functionNames units := by
  refine filterMap_origins_pieces ?_ rfl rfl o units
  intro s n
  obtain ⟨place, t, c⟩ := s
  cases c with
  | arithmetic op => cases op <;> rfl
  | _ => rfl

theorem filterMap_qualified? (o : Options) (units : List SourceUnit) :
    (origins (pieces o units)).filterMap qualified? = scopedLabels units := by
  refine filterMap_origins_pieces ?_ rfl rfl o units
  intro s n
  obtain ⟨place, t, c⟩ := s
  cases c with
  | arithmetic op => cases op <;> rfl
  | _ => rfl

/-! ## Numbers are taken once -/

theorem Numbering.calls_le_after (n : Numbering) (c : Command) : n.calls ≤ (n.after c).calls := by
  rw [Numbering.calls_after]
  omega

theorem Numbering.comparisons_le_after (n : Numbering) (c : Command) :
    n.comparisons ≤ (n.after c).comparisons := by
  rw [Numbering.comparisons_after]
  omega

namespace LabelOrigin

theorem Beyond.mono {m n : Numbering} (hc : m.calls ≤ n.calls)
    (hm : m.comparisons ≤ n.comparisons) {a : LabelOrigin} (h : a.Beyond n) : a.Beyond m := by
  cases a with
  | entry f => trivial
  | qualified s l => trivial
  | halt => exact h
  | numbered b w k =>
    rw [Beyond] at h ⊢
    by_cases hw : w = "ret"
    · rw [if_pos hw] at h ⊢
      exact Nat.lt_of_le_of_lt hc h
    · rw [if_neg hw] at h ⊢
      exact Nat.lt_of_le_of_lt hm h

theorem beyond_returning_iff {m n : Numbering} {f : String} :
    (returning n f).Beyond m ↔ m.calls < n.calls + 1 := by
  rw [returning, Beyond, if_pos rfl]

theorem beyond_onTrue_iff {m n : Numbering} :
    (onTrue n).Beyond m ↔ m.comparisons < n.comparisons + 1 := by
  rw [onTrue, Beyond, if_neg (by decide)]

theorem beyond_atEnd_iff {m n : Numbering} :
    (atEnd n).Beyond m ↔ m.comparisons < n.comparisons + 1 := by
  rw [atEnd, Beyond, if_neg (by decide)]

theorem beyond_of_not_isInvented {n : Numbering} {a : LabelOrigin} (h : a.isInvented = false) :
    a.Beyond n := by
  cases a with
  | entry f => trivial
  | qualified s l => trivial
  | numbered b w k => cases h
  | halt => cases h

end LabelOrigin

namespace Site

variable {s : Site} {n : Numbering} {a : LabelOrigin}

/-- A label of a command is of the source, or has the next number. -/
theorem mem_origins_cases (h : a ∈ s.origins n) :
    a.isInvented = false ∨ (s.command.isCall = true ∧ ∃ f, a = returning n f) ∨
      (s.command.isComparison = true ∧ (a = onTrue n ∨ a = atEnd n)) := by
  obtain ⟨place, t, c⟩ := s
  cases c with
  | function f k =>
    left
    rw [List.mem_singleton.1 h]
    rfl
  | label l =>
    left
    rw [List.mem_singleton.1 h]
    rfl
  | call f k => exact .inr (.inl ⟨rfl, f, List.mem_singleton.1 h⟩)
  | arithmetic op =>
    have h : a ∈ if op.comparison?.isSome then [onTrue n, atEnd n] else [] := h
    split at h
    · rename_i ho
      exact .inr (.inr ⟨ho, by simpa using h⟩)
    · cases h
  | _ => cases h

theorem beyond_of_mem_origins (h : a ∈ s.origins n) : a.Beyond n := by
  rcases mem_origins_cases h with hi | ⟨-, f, rfl⟩ | ⟨-, rfl | rfl⟩
  · exact beyond_of_not_isInvented hi
  · exact beyond_returning_iff.2 (Nat.lt_succ_self _)
  · exact beyond_onTrue_iff.2 (Nat.lt_succ_self _)
  · exact beyond_atEnd_iff.2 (Nat.lt_succ_self _)

/-- The numbers of a command are taken behind it. -/
theorem not_beyond_after (h : a ∈ s.origins n) (hi : a.isInvented = true) :
    ¬ a.Beyond (n.after s.command) := by
  rcases mem_origins_cases h with hf | ⟨hc, f, rfl⟩ | ⟨hc, ha⟩
  · rw [hf] at hi
    cases hi
  · rw [beyond_returning_iff, Numbering.calls_after, if_pos hc]
    exact Nat.lt_irrefl _
  · have hn : ¬ (n.after s.command).comparisons < n.comparisons + 1 := by
      rw [Numbering.comparisons_after, if_pos hc]
      exact Nat.lt_irrefl _
    rcases ha with rfl | rfl
    · exact fun hb => hn (beyond_onTrue_iff.1 hb)
    · exact fun hb => hn (beyond_atEnd_iff.1 hb)

theorem nodup_origins (s : Site) (n : Numbering) : (s.origins n).Nodup := by
  obtain ⟨place, t, c⟩ := s
  cases c with
  | arithmetic op =>
    show (if op.comparison?.isSome then [onTrue n, atEnd n] else []).Nodup
    split
    · simp [onTrue, atEnd]
    · exact List.nodup_nil
  | function f k => exact List.nodup_singleton _
  | label l => exact List.nodup_singleton _
  | call f k => exact List.nodup_singleton _
  | _ => exact List.nodup_nil

end Site

theorem beyond_of_mem_sitePieces {n : Numbering} {ss : List Site} {a : LabelOrigin}
    (h : a ∈ origins (sitePieces n ss)) : a.Beyond n := by
  induction ss generalizing n with
  | nil => cases h
  | cons s ss ih =>
    rw [sitePieces, origins, List.flatMap_cons, List.mem_append] at h
    rcases h with h | h
    · exact Site.beyond_of_mem_origins h
    · exact (ih h).mono (n.calls_le_after _) (n.comparisons_le_after _)

/-- No label that is made up comes twice. -/
def InventedOnce (l : List LabelOrigin) : Prop :=
  l.Pairwise fun a b => a.isInvented = true → a ≠ b

theorem inventedOnce_sitePieces (n : Numbering) (ss : List Site) :
    InventedOnce (origins (sitePieces n ss)) := by
  induction ss generalizing n with
  | nil => exact List.Pairwise.nil
  | cons s ss ih =>
    rw [InventedOnce, sitePieces, origins, List.flatMap_cons, List.pairwise_append]
    refine ⟨(s.nodup_origins n).imp fun {a b} hne (_ : a.isInvented = true) => hne, ih _, ?_⟩
    rintro a ha b hb hi rfl
    exact Site.not_beyond_after ha hi (beyond_of_mem_sitePieces hb)

theorem inventedOnce_pieces (o : Options) (units : List SourceUnit) :
    InventedOnce (origins (pieces o units)) := by
  rw [origins_pieces]
  split
  · -- the numbering of the sites starts behind the call of the bootstrap
    refine List.pairwise_cons.2 ⟨?_, inventedOnce_sitePieces _ _⟩
    rintro b hm - rfl
    exact absurd (beyond_returning_iff.1 (beyond_of_mem_sitePieces hm)) (Nat.lt_irrefl 1)
  · refine List.pairwise_append.2 ⟨inventedOnce_sitePieces _ _, List.pairwise_singleton _ _, ?_⟩
    rintro a hm b hh - rfl
    rw [List.mem_singleton.1 hh] at hm
    exact beyond_of_mem_sitePieces hm

/-! ## Plain names -/

/-- The source declares no function with a `$` in its name, no label with a `$` or a `.`, and no
function that is named like the halt loop if there is one. -/
structure PlainNames (o : Options) (units : List SourceUnit) : Prop where
  function : ∀ f ∈ functionNames units, '$' ∉ f.toList
  label : ∀ d ∈ scopedLabels units, '$' ∉ d.2.toList ∧ '.' ∉ d.2.toList
  halt : o.bootstrap.appliesTo units.length = false → haltLabel ∉ functionNames units

theorem plainNames_iff {o : Options} {units : List SourceUnit} :
    PlainNames o units ↔ (∀ f ∈ functionNames units, '$' ∉ f.toList) ∧
      (∀ d ∈ scopedLabels units, '$' ∉ d.2.toList ∧ '.' ∉ d.2.toList) ∧
      (o.bootstrap.appliesTo units.length = false → haltLabel ∉ functionNames units) :=
  ⟨fun h => ⟨h.function, h.label, h.halt⟩, fun ⟨hf, hl, hh⟩ => ⟨hf, hl, hh⟩⟩

instance (o : Options) (units : List SourceUnit) : Decidable (PlainNames o units) :=
  decidable_of_iff' _ plainNames_iff

theorem entry_mem_origins {o : Options} {units : List SourceUnit} {f : String} :
    entry f ∈ origins (pieces o units) ↔ f ∈ functionNames units := by
  rw [← filterMap_function? o, List.mem_filterMap]
  constructor
  · exact fun h => ⟨_, h, rfl⟩
  · rintro ⟨a, ha, he⟩
    cases a with
    | entry g =>
      cases he
      exact ha
    | _ => cases he

theorem qualified_mem_origins {o : Options} {units : List SourceUnit} {s l : String} :
    qualified s l ∈ origins (pieces o units) ↔ (s, l) ∈ scopedLabels units := by
  rw [← filterMap_qualified? o, List.mem_filterMap]
  constructor
  · exact fun h => ⟨_, h, rfl⟩
  · rintro ⟨a, ha, he⟩
    cases a with
    | qualified s' l' =>
      cases he
      exact ha
    | _ => cases he

/-- The words in labels with a number. -/
theorem word_of_mem_origins {q : Piece} {b w : String} {k : Nat}
    (h : numbered b w k ∈ q.origins) : w = "ret" ∨ w = "TRUE" ∨ w = "END" := by
  cases q with
  | bootstrap =>
    cases List.mem_singleton.1 h
    exact .inl rfl
  | halt => cases List.mem_singleton.1 h
  | command s n =>
    rcases Site.mem_origins_cases h with hi | ⟨-, f, hf⟩ | ⟨-, ht | he⟩
    · cases hi
    · cases hf
      exact .inl rfl
    · cases ht
      exact .inr (.inl rfl)
    · cases he
      exact .inr (.inr rfl)

theorem PlainNames.plain {o : Options} {units : List SourceUnit} (h : PlainNames o units)
    {a : LabelOrigin} (ha : a ∈ origins (pieces o units)) : a.Plain := by
  cases a with
  | entry f => exact h.function f (entry_mem_origins.1 ha)
  | qualified s l => exact h.label (s, l) (qualified_mem_origins.1 ha)
  | halt => trivial
  | numbered b w k =>
    obtain ⟨q, -, hq⟩ := List.mem_flatMap.1 ha
    show '$' ∉ w.toList ∧ '.' ∉ w.toList
    rcases word_of_mem_origins hq with rfl | rfl | rfl
    · decide
    · decide
    · decide

/-- There is a halt loop only in a program without a bootstrap. -/
theorem appliesTo_of_halt_mem {o : Options} {units : List SourceUnit}
    (h : LabelOrigin.halt ∈ origins (pieces o units)) :
    o.bootstrap.appliesTo units.length = false := by
  cases hb : o.bootstrap.appliesTo units.length with
  | false => rfl
  | true =>
    rw [origins_pieces, if_pos hb, List.mem_cons] at h
    rcases h with h | h
    · cases h
    · exact absurd (beyond_of_mem_sitePieces h) id

/-- With plain names, labels that are spelt alike have one origin. -/
theorem PlainNames.eq_of_text_eq {o : Options} {units : List SourceUnit}
    (h : PlainNames o units) {a b : LabelOrigin} (ha : a ∈ origins (pieces o units))
    (hb : b ∈ origins (pieces o units)) (ht : a.text = b.text) : a = b := by
  rcases LabelOrigin.eq_of_text_eq (h.plain ha) (h.plain hb) ht with he | ⟨rfl, rfl⟩ | ⟨rfl, rfl⟩
  · exact he
  · exact absurd (entry_mem_origins.1 ha) (h.halt (appliesTo_of_halt_mem hb))
  · exact absurd (entry_mem_origins.1 hb) (h.halt (appliesTo_of_halt_mem ha))

/-! ## Repetition -/

theorem duplicate_filterMap {α β : Type} {l : List α} {a : α} {b : β} {f : α → Option β}
    (h : List.Duplicate a l) (hf : f a = some b) : List.Duplicate b (l.filterMap f) := by
  rw [List.duplicate_iff_sublist] at h ⊢
  have hs := h.filterMap f
  rwa [List.filterMap_cons_some hf, List.filterMap_cons_some hf, List.filterMap_nil] at hs

/-- What is found with its image is a part of all the images. -/
theorem filterMap_map_sublist {α β γ : Type} {f : α → Option β} {g : β → γ} {t : α → γ}
    (h : ∀ a b, f a = some b → t a = g b) (l : List α) :
    ((l.filterMap f).map g).Sublist (l.map t) := by
  induction l with
  | nil => exact List.Sublist.slnil
  | cons a l ih =>
    cases ha : f a with
    | none =>
      rw [List.filterMap_cons_none ha, List.map_cons]
      exact ih.cons _
    | some b =>
      rw [List.filterMap_cons_some ha, List.map_cons, List.map_cons, h a b ha]
      exact ih.cons_cons _

/-- With plain names only the source declares a label twice: a function, or a label in scopes of
one name. -/
theorem PlainNames.duplicate_cases {o : Options} {units : List SourceUnit}
    (h : PlainNames o units) {name : String}
    (hd : List.Duplicate name (labels (instructions o (pieces o units)))) :
    List.Duplicate name (functionNames units) ∨
      ∃ s l, name = (Scope.mk s).qualify l ∧ List.Duplicate (s, l) (scopedLabels units) := by
  rw [labels_instructions, List.duplicate_iff_sublist, List.sublist_map_iff] at hd
  obtain ⟨found, hs, he⟩ := hd
  obtain ⟨a, l, rfl, ha, hl⟩ := List.map_eq_cons_iff.1 he.symm
  obtain ⟨b, l, rfl, hb, hl⟩ := List.map_eq_cons_iff.1 hl
  obtain rfl := List.map_eq_nil_iff.1 hl
  have hm : ∀ c ∈ [a, b], c ∈ origins (pieces o units) := fun c hc => hs.subset hc
  obtain rfl : a = b := h.eq_of_text_eq (hm a (by simp)) (hm b (by simp)) (ha.trans hb.symm)
  have ho : a.isInvented = true → a ≠ a :=
    List.rel_of_pairwise_cons ((inventedOnce_pieces o units).sublist hs) (by simp)
  have hd := List.duplicate_iff_sublist.2 hs
  cases a with
  | entry f =>
    left
    rw [← filterMap_function? o, ← ha]
    exact duplicate_filterMap hd rfl
  | qualified s l =>
    right
    refine ⟨s, l, ha.symm, ?_⟩
    rw [← filterMap_qualified? o]
    exact duplicate_filterMap hd rfl
  | numbered b w k => exact absurd rfl (ho rfl)
  | halt => exact absurd rfl (ho rfl)

theorem PlainNames.labels_nodup {o : Options} {units : List SourceUnit} (h : PlainNames o units)
    (hf : (functionNames units).Nodup) (hs : (scopedLabels units).Nodup) :
    (labels (instructions o (pieces o units))).Nodup := by
  rw [List.nodup_iff_forall_not_duplicate]
  intro name hname
  rcases h.duplicate_cases hname with hx | ⟨s, l, -, hx⟩
  · exact hx.not_nodup hf
  · exact hx.not_nodup hs

/-- Labels that are distinct show that the source declares nothing twice, plain or not. -/
theorem nodup_of_labels_nodup {o : Options} {units : List SourceUnit}
    (h : (labels (instructions o (pieces o units))).Nodup) :
    (functionNames units).Nodup ∧ (scopedLabels units).Nodup := by
  rw [labels_instructions] at h
  constructor
  · have hf : ∀ a b, function? a = some b → a.text = id b := by
      intro a b hb
      cases a with
      | entry f =>
        cases hb
        rfl
      | _ => cases hb
    have hs := filterMap_map_sublist hf (origins (pieces o units))
    rw [filterMap_function?, List.map_id] at hs
    exact h.sublist hs
  · have hq : ∀ a b, qualified? a = some b → a.text = (Scope.mk b.1).qualify b.2 := by
      intro a b hb
      cases a with
      | qualified s l =>
        cases hb
        rfl
      | _ => cases hb
    have hs := filterMap_map_sublist hq (origins (pieces o units))
    rw [filterMap_qualified?] at hs
    exact (h.sublist hs).of_map _

/-- Labels are rejected exactly if the source declares one twice, when its names are plain.
Then and only then a function is declared twice in the program, or a label twice in scopes of
one name, and that is what is reported; otherwise there is a program. -/
theorem translate_of_plainNames {o : Options} {units : List SourceUnit} (hr : Readable units)
    (hp : PlainNames o units) :
    ((∃ name, translate o units = .error (.duplicateLabel name)) ↔
      ¬ (functionNames units).Nodup ∨ ¬ (scopedLabels units).Nodup) ∧
    ((functionNames units).Nodup → (scopedLabels units).Nodup →
      ∃ p, translate o units = .ok p) ∧
    ∀ name, translate o units = .error (.duplicateLabel name) →
      List.Duplicate name (functionNames units) ∨
        ∃ s l, name = (Scope.mk s).qualify l ∧ List.Duplicate (s, l) (scopedLabels units) := by
  have hd : ∀ name, translate o units = .error (.duplicateLabel name) →
      List.Duplicate name (functionNames units) ∨
        ∃ s l, name = (Scope.mk s).qualify l ∧ List.Duplicate (s, l) (scopedLabels units) :=
    fun name he => hp.duplicate_cases (duplicate_of_translate hr he)
  refine ⟨⟨?_, ?_⟩, fun hf hs => exists_translate hr (hp.labels_nodup hf hs), hd⟩
  · rintro ⟨name, he⟩
    rcases hd name he with hx | ⟨s, l, -, hx⟩
    · exact .inl hx.not_nodup
    · exact .inr hx.not_nodup
  · intro hx
    refine exists_translate_error hr fun hl => ?_
    obtain ⟨hf, hs⟩ := nodup_of_labels_nodup hl
    rcases hx with hx | hx
    · exact hx hf
    · exact hx hs

/-- A label in front of the first function, whose scope is the unit `A`. -/
def labelInUnit : SourceUnit := ⟨"A", "label L\ncall B.f 0\neq"⟩

/-- A label in a function of another unit. -/
def labelInFunction (f : String) : SourceUnit := ⟨"B", "function " ++ f ++ " 0\nlabel L"⟩

/-- A label of the function `A` clashes with that of the unit `A`, and one of `B.f` does not. -/
theorem translate_of_labelInUnit :
    (∃ name, translate .default [labelInUnit, labelInFunction "A"] =
        .error (.duplicateLabel name)) ∧
      ∃ p, translate .default [labelInUnit, labelInFunction "B.f"] = .ok p := by
  constructor
  · have hr : Readable [labelInUnit, labelInFunction "A"] := by decide
    have hp : PlainNames .default [labelInUnit, labelInFunction "A"] := by decide
    exact (translate_of_plainNames hr hp).1.2 (.inr (by decide))
  · have hr : Readable [labelInUnit, labelInFunction "B.f"] := by decide
    have hp : PlainNames .default [labelInUnit, labelInFunction "B.f"] := by decide
    exact (translate_of_plainNames hr hp).2.1 (by decide) (by decide)

end HackVM
