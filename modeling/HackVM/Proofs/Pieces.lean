import HackVM.Program
import HackVM.Proofs.RoundTrip

/-!
# The pieces of a program

Each source line of the units is a site: a command and the place where it stands. A program is
put together from pieces, one for each site in order, with the bootstrap in front of them or
the halt loop behind them. The commands of an accepted program are in range, their names are
symbols, and so each piece consists of well-formed instructions.
-/

namespace HackVM

open Assembly Instruction Sequence Text

/-! ## Sites -/

/-- A command, the text of its line, and where it stands. -/
structure Site where
  place : Place
  text : String
  command : Command
deriving DecidableEq, Repr

namespace SourceUnit

/-- The sites on the lines of a unit; the first line belongs to `scope`. -/
def sitesFrom (unit : String) (scope : Scope) : List SourceLine → List Site
  | [] => []
  | l :: ls =>
    match Command.read l.text with
    | .ok c => ⟨⟨unit, scope.after c⟩, l.text, c⟩ :: sitesFrom unit (scope.after c) ls
    | .error _ => sitesFrom unit scope ls

def sites (u : SourceUnit) : List Site :=
  sitesFrom u.name (.unit u.name) (SourceLine.ofText u.source)

end SourceUnit

/-- The sites of all units in order. -/
def sites (units : List SourceUnit) : List Site := units.flatMap SourceUnit.sites

/-! ## Pieces -/

/-- What a stretch of a program comes from. -/
inductive Piece
  | bootstrap
  | command (site : Site) (numbering : Numbering)
  | halt
deriving DecidableEq, Repr

namespace Piece

/-- What is quoted in front of the piece. -/
def text : Piece → String
  | bootstrap => "bootstrap"
  | command site _ => site.text
  | halt => "halt"

def code : Piece → List Instruction
  | bootstrap => Expansion.bootstrap .start
  | command site n => ((site.command.expand site.place n).toOption).getD []
  | halt => Expansion.haltLoop

end Piece

/-- The sites as pieces; `n` is the numbering in front of the first. -/
def sitePieces (n : Numbering) : List Site → List Piece
  | [] => []
  | s :: ss => .command s n :: sitePieces (n.after s.command) ss

/-- The pieces of the program that the units are translated to. -/
def pieces (o : Options) (units : List SourceUnit) : List Piece :=
  let hasBootstrap := o.bootstrap.appliesTo units.length
  (if hasBootstrap then [.bootstrap] else []) ++
    sitePieces (firstNumbering hasBootstrap) (sites units) ++
    (if hasBootstrap then [] else [.halt])

/-- The instructions of pieces, each quoted as the options say. -/
def instructions (o : Options) (ps : List Piece) : List Instruction :=
  ps.flatMap fun p => SourceUnit.quoted o p.text p.code

/-- The numbering behind sites. -/
def numberingAfter (n : Numbering) (ss : List Site) : Numbering :=
  ss.foldl (fun n s => n.after s.command) n

theorem sitePieces_append (n : Numbering) (ss ts : List Site) :
    sitePieces n (ss ++ ts) = sitePieces n ss ++ sitePieces (numberingAfter n ss) ts := by
  induction ss generalizing n with
  | nil => rfl
  | cons s ss ih => simp [sitePieces, ih, numberingAfter]

theorem instructions_append (o : Options) (ps qs : List Piece) :
    instructions o (ps ++ qs) = instructions o ps ++ instructions o qs := by
  simp [instructions]

theorem mem_sitePieces {n : Numbering} {ss : List Site} {p : Piece} (h : p ∈ sitePieces n ss) :
    ∃ s ∈ ss, ∃ k, p = .command s k := by
  induction ss generalizing n with
  | nil => simp [sitePieces] at h
  | cons s ss ih =>
    rcases List.mem_cons.1 h with rfl | h
    · exact ⟨s, by simp, n, rfl⟩
    · obtain ⟨t, ht, k, rfl⟩ := ih h
      exact ⟨t, by simp [ht], k, rfl⟩

theorem exists_mem_sitePieces {n : Numbering} {ss : List Site} {s : Site} (h : s ∈ ss) :
    ∃ k, Piece.command s k ∈ sitePieces n ss := by
  induction ss generalizing n with
  | nil => simp at h
  | cons t ss ih =>
    rcases List.mem_cons.1 h with rfl | h
    · exact ⟨n, by simp [sitePieces]⟩
    · obtain ⟨k, hk⟩ := ih (n := n.after t.command) h
      exact ⟨k, by simp [sitePieces, hk]⟩

/-! ## Translation -/

namespace SourceUnit

/-- Each source line becomes one fragment, with the instructions of its piece. -/
theorem translateLines_eq_pieces {o : Options} {unit : String} {ls : List SourceLine}
    {s : Progress} {fs : List Fragment} (h : (translateLines o unit s ls).1 = .ok fs) :
    fs.map (·.instructions) = (sitePieces s.numbering (sitesFrom unit s.scope ls)).map
        (fun q => quoted o q.text q.code) ∧
      (translateLines o unit s ls).2 =
        numberingAfter s.numbering (sitesFrom unit s.scope ls) := by
  induction ls generalizing s fs with
  | nil =>
    cases h
    exact ⟨rfl, rfl⟩
  | cons l ls ih =>
    rw [translateLines] at h ⊢
    cases hl : translateLine o unit s l with
    | error e => simp [hl] at h
    | ok r =>
      obtain ⟨f, s'⟩ := r
      obtain ⟨c, code, hc, he, rfl, rfl⟩ := translateLine_eq_ok hl
      simp only [hl] at h ⊢
      cases hr : (translateLines o unit ((s.enter c).pass c) ls).1 with
      | error e => simp [hr, Except.map] at h
      | ok rest =>
        simp only [hr, Except.map, Except.ok.injEq] at h
        subst h
        obtain ⟨h₁, h₂⟩ := ih hr
        have hs : sitesFrom unit s.scope (l :: ls) =
            ⟨⟨unit, s.scope.after c⟩, l.text, c⟩ :: sitesFrom unit (s.scope.after c) ls := by
          rw [sitesFrom, hc]
        have hp : (Piece.command ⟨⟨unit, s.scope.after c⟩, l.text, c⟩ s.numbering).code = code := by
          show ((c.expand ⟨unit, s.scope.after c⟩ s.numbering).toOption).getD [] = code
          rw [show c.expand ⟨unit, s.scope.after c⟩ s.numbering = .ok code from he]
          rfl
        rw [hs]
        constructor
        · rw [List.map_cons, h₁, sitePieces, List.map_cons, hp]
          rfl
        · exact h₂

theorem translate_eq_pieces {o : Options} {n : Numbering} {u : SourceUnit}
    {fs : List Fragment} (h : (u.translate o n).1 = .ok fs) :
    isSymbol u.name = true ∧
      fs.map (·.instructions) = (sitePieces n u.sites).map (fun q => quoted o q.text q.code) ∧
      (u.translate o n).2 = numberingAfter n u.sites := by
  rw [translate] at h ⊢
  split at h
  · rename_i hn
    rw [if_pos hn]
    exact ⟨hn, translateLines_eq_pieces h⟩
  · cases h

end SourceUnit

theorem translateUnits_eq_pieces {o : Options} {n : Numbering} {us : List SourceUnit}
    {fs : List Fragment} (h : translateUnits o n us = .ok fs) :
    (∀ u ∈ us, isSymbol u.name = true) ∧
      fs.map (·.instructions) =
        (sitePieces n (sites us)).map fun q => SourceUnit.quoted o q.text q.code := by
  induction us generalizing n fs with
  | nil =>
    cases h
    exact ⟨by simp, rfl⟩
  | cons u us ih =>
    rw [translateUnits] at h
    split at h
    · cases h
    · rename_i gs n' hu
      obtain ⟨hn, hg, hk⟩ := u.translate_eq_pieces (congrArg Prod.fst hu)
      rw [congrArg Prod.snd hu] at hk
      dsimp only at hk
      subst hk
      cases hr : translateUnits o (numberingAfter n u.sites) us with
      | error e => simp [hr, Except.map] at h
      | ok rest =>
        simp only [hr, Except.map, Except.ok.injEq] at h
        subst h
        obtain ⟨h₁, h₂⟩ := ih hr
        refine ⟨by simp [hn]; exact h₁, ?_⟩
        rw [List.map_append, hg, h₂, ← List.map_append, ← sitePieces_append]
        rfl

/-- The fragments of the units put together are the instructions of their pieces. -/
theorem translateUnits_eq_instructions {o : Options} {n : Numbering} {us : List SourceUnit}
    {fs : List Fragment} (h : translateUnits o n us = .ok fs) :
    (∀ u ∈ us, isSymbol u.name = true) ∧
      fs.flatMap (·.instructions) = instructions o (sitePieces n (sites us)) := by
  obtain ⟨hn, hf⟩ := translateUnits_eq_pieces h
  exact ⟨hn, by rw [List.flatMap_def, hf, instructions, List.flatMap_def]⟩

/-- A program that is assembled from the instructions of the sites is that of the pieces. -/
theorem instructions_assemble {o : Options} {units : List SourceUnit} {fs : List Fragment}
    (h : fs.flatMap (·.instructions) = instructions o
      (sitePieces (firstNumbering (o.bootstrap.appliesTo units.length)) (sites units))) :
    (assemble o (o.bootstrap.appliesTo units.length) fs).instructions =
      instructions o (pieces o units) := by
  cases hb : o.bootstrap.appliesTo units.length <;>
    simp [assemble, opening, closing, h, hb, pieces, instructions, Piece.text, Piece.code]

/-- What it means that the units are translated to `p`. -/
structure Translated (o : Options) (units : List SourceUnit) (p : Program) : Prop where
  hasBootstrap : p.hasBootstrap = o.bootstrap.appliesTo units.length
  instructions : p.instructions = instructions o (pieces o units)
  labels_nodup : (Instruction.labels p.instructions).Nodup
  names_nodup : (units.map (·.name)).Nodup
  isSymbol_name : ∀ u ∈ units, isSymbol u.name = true

/-- A program is made of the fragments of its units, which have distinct names; and its labels
are distinct. -/
theorem translate_eq_ok {o : Options} {units : List SourceUnit} {p : Program}
    (h : translate o units = .ok p) :
    p.hasBootstrap = o.bootstrap.appliesTo units.length ∧
      (∃ fs, translateUnits o (firstNumbering p.hasBootstrap) units = .ok fs ∧
        p = assemble o p.hasBootstrap fs) ∧
      (labels p.instructions).Nodup ∧ (units.map (·.name)).Nodup := by
  rw [translate] at h
  split at h
  · cases h
  cases hd : firstRepeated (units.map (·.name)) with
  | some name =>
    rw [hd] at h
    cases h
  | none =>
    rw [hd] at h
    change Except.bind (translateUnits o (firstNumbering (o.bootstrap.appliesTo units.length))
      units) _ = _ at h
    cases hu : translateUnits o (firstNumbering (o.bootstrap.appliesTo units.length)) units with
    | error e =>
      rw [hu] at h
      cases h
    | ok fs =>
      rw [hu] at h
      cases hl : firstRepeated (labels (assemble o (o.bootstrap.appliesTo units.length)
          fs).instructions) with
      | some name =>
        simp only [Except.bind, hl] at h
        cases h
      | none =>
        simp only [Except.bind, hl] at h
        cases h
        exact ⟨rfl, ⟨fs, hu, rfl⟩, firstRepeated_eq_none_iff.1 hl, firstRepeated_eq_none_iff.1 hd⟩

theorem translated_of_translate {o : Options} {units : List SourceUnit} {p : Program}
    (h : translate o units = .ok p) : Translated o units p := by
  obtain ⟨hb, ⟨fs, hf, hp⟩, hl, hd⟩ := translate_eq_ok h
  rw [hb] at hf hp
  obtain ⟨hn, hi⟩ := translateUnits_eq_instructions hf
  refine ⟨hb, ?_, hl, hd, hn⟩
  rw [hp]
  exact instructions_assemble hi

example : (translate ⟨false, .auto⟩ [⟨"Main", "label L // start\ngoto L"⟩]).map Program.text =
    .ok "(Main$L)\n@Main$L\n0;JMP\n(END)\n@END\n0;JMP\n" := by rfl

end HackVM
