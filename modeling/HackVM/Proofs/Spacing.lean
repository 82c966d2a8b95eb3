import HackVM.Proofs.Verdict

/-!
# Comments, blanks and spelling

A program depends on the names of its units and on the commands on their lines, and on nothing
else of the text. Sources that hold the same commands, however they are laid out, numbered and
commented, are accepted or rejected alike; and if they are accepted, the programs differ in
comments alone, whether or not these are asked for, and load to the same program memory.
-/

namespace HackVM

open Assembly Instruction

/-- Two units of one name whose lines hold the same commands, one after the other. -/
structure SameCommands (u v : SourceUnit) : Prop where
  name : u.name = v.name
  commands : ∃ cs : List Command,
    (SourceLine.ofText u.source).map (fun l => Command.read l.text) = cs.map .ok ∧
      (SourceLine.ofText v.source).map (fun l => Command.read l.text) = cs.map .ok

/-! ## Sites -/

/-- What of a site its piece depends on besides the numbering, its quotation apart. -/
def Site.content (s : Site) : Place × Command := (s.place, s.command)

theorem SourceUnit.content_sitesFrom_congr {ls ks : List SourceLine}
    (h : ls.map (fun l => Command.read l.text) = ks.map fun l => Command.read l.text)
    (unit : String) (scope : Scope) :
    (sitesFrom unit scope ls).map Site.content = (sitesFrom unit scope ks).map Site.content := by
  induction ls generalizing ks scope with
  | nil =>
    obtain rfl := List.map_eq_nil_iff.1 h.symm
    rfl
  | cons l ls ih =>
    obtain ⟨k, ks, rfl, hk, hks⟩ := List.map_eq_cons_iff.1 h.symm
    have hr : Command.read k.text = Command.read l.text := hk
    rw [sitesFrom, sitesFrom, hr]
    cases Command.read l.text with
    | error e => exact ih hks.symm scope
    | ok c =>
      rw [List.map_cons, List.map_cons, ih hks.symm]
      rfl

theorem map_code_sitePieces_congr {ss ts : List Site}
    (h : ss.map Site.content = ts.map Site.content) (n : Numbering) :
    (sitePieces n ss).map Piece.code = (sitePieces n ts).map Piece.code := by
  induction ss generalizing ts n with
  | nil =>
    obtain rfl := List.map_eq_nil_iff.1 h.symm
    rfl
  | cons s ss ih =>
    obtain ⟨t, ts, rfl, ht, hts⟩ := List.map_eq_cons_iff.1 h.symm
    have hp : t.place = s.place := congrArg Prod.fst ht
    have hc : t.command = s.command := congrArg Prod.snd ht
    rw [sitePieces, sitePieces, List.map_cons, List.map_cons, hc, ih hts.symm, Piece.code,
      Piece.code, hp, hc]

/-! ## Units -/

namespace SameCommands

variable {u v : SourceUnit}

theorem content_sites (h : SameCommands u v) :
    u.sites.map Site.content = v.sites.map Site.content := by
  obtain ⟨cs, hu, hv⟩ := h.commands
  rw [SourceUnit.sites, SourceUnit.sites, h.name]
  exact SourceUnit.content_sitesFrom_congr (hu.trans hv.symm) _ _

/-- No line of such units is bad, and so only the name matters. -/
theorem fault?_eq (h : SameCommands u v) : u.fault? = v.fault? := by
  have hread : ∀ (w : SourceUnit) (cs : List Command),
      (SourceLine.ofText w.source).map (fun l => Command.read l.text) = cs.map .ok →
        w.fault? = if isSymbol w.name then none else some (.invalidUnitName w.name) := by
    intro w cs hw
    have hn : (SourceLine.ofText w.source).findSome? (SourceUnit.lineFault? w.name) = none := by
      rw [List.findSome?_eq_none_iff]
      intro l hl
      have hm : Command.read l.text ∈ cs.map .ok := hw ▸ List.mem_map_of_mem hl
      obtain ⟨c, -, hc⟩ := List.mem_map.1 hm
      exact SourceUnit.lineFault?_eq_none_iff.2 ⟨c, hc.symm⟩
    rw [SourceUnit.fault?, hn]
  obtain ⟨cs, hu, hv⟩ := h.commands
  rw [hread u cs hu, hread v cs hv, h.name]

end SameCommands

/-- What is the same of related elements is the same of all together. -/
theorem map_eq_of_forall₂ {α β : Type} {R : α → α → Prop} {l l' : List α} {f : α → β}
    (h : List.Forall₂ R l l') (hf : ∀ a b, R a b → f a = f b) : l.map f = l'.map f := by
  rw [← List.forall₂_eq_eq_eq, List.forall₂_map_left_iff, List.forall₂_map_right_iff]
  exact h.imp hf

section

variable {o o' : Options} {units units' : List SourceUnit}

theorem unitsFault?_of_sameCommands (h : List.Forall₂ SameCommands units units') :
    unitsFault? units = unitsFault? units' := by
  have hl : units.isEmpty = units'.isEmpty := by
    cases h <;> rfl
  have hn : units.map (·.name) = units'.map (·.name) :=
    map_eq_of_forall₂ h fun _ _ => SameCommands.name
  have hf : units.map SourceUnit.fault? = units'.map SourceUnit.fault? :=
    map_eq_of_forall₂ h fun _ _ => SameCommands.fault?_eq
  have hs : units.findSome? SourceUnit.fault? = units'.findSome? SourceUnit.fault? := by
    have hm := congrArg (List.findSome? id) hf
    rwa [List.findSome?_map, List.findSome?_map] at hm
  rw [unitsFault?, unitsFault?, hl, hn, hs]

theorem content_sites_of_sameCommands (h : List.Forall₂ SameCommands units units') :
    (sites units).map Site.content = (sites units').map Site.content := by
  have hs := map_eq_of_forall₂ h fun _ _ => SameCommands.content_sites
  rw [sites, sites, List.map_flatMap, List.map_flatMap, List.flatMap_def, List.flatMap_def, hs]

/-! ## Programs -/

theorem bare_quoted (o : Options) (t : String) (code : List Instruction) :
    bare (SourceUnit.quoted o t code) = bare code := by
  rw [SourceUnit.quoted]
  split
  · rfl
  · rfl

theorem bare_instructions (o : Options) (ps : List Piece) :
    bare (instructions o ps) = (ps.map Piece.code).flatMap bare := by
  induction ps with
  | nil => rfl
  | cons q ps ih =>
    rw [List.map_cons, List.flatMap_cons, ← ih, instructions, List.flatMap_cons]
    show List.filter _ (_ ++ _) = _
    rw [List.filter_append]
    exact congrArg (· ++ bare (instructions o ps)) (bare_quoted o q.text q.code)

theorem map_code_pieces_of_sameCommands (hb : o.bootstrap = o'.bootstrap)
    (h : List.Forall₂ SameCommands units units') :
    (pieces o units).map Piece.code = (pieces o' units').map Piece.code := by
  have hs := map_code_sitePieces_congr (content_sites_of_sameCommands h)
  simp only [pieces, hb, h.length_eq, List.map_append, hs]

theorem bare_instructions_of_sameCommands (hb : o.bootstrap = o'.bootstrap)
    (h : List.Forall₂ SameCommands units units') :
    bare (instructions o (pieces o units)) = bare (instructions o' (pieces o' units')) := by
  rw [bare_instructions, bare_instructions, map_code_pieces_of_sameCommands hb h]

/-- What the one translation answers the other answers, with comments of its own. -/
theorem translate_eq_map_translate (hb : o.bootstrap = o'.bootstrap)
    (h : List.Forall₂ SameCommands units units') :
    translate o' units' = (translate o units).map fun p =>
      ⟨instructions o' (pieces o' units'), p.hasBootstrap⟩ := by
  cases hf : unitsFault? units with
  | some e =>
    rw [translate_of_unitsFault? hf, translate_of_unitsFault? (unitsFault?_of_sameCommands h ▸ hf)]
    rfl
  | none =>
    have hl : labels (instructions o (pieces o units)) =
        labels (instructions o' (pieces o' units')) := by
      rw [← labels_bare, bare_instructions_of_sameCommands hb h, labels_bare]
    rw [translate_of_readable (readable_of_unitsFault? hf),
      translate_of_readable (readable_of_unitsFault? (unitsFault?_of_sameCommands h ▸ hf)), hl, hb,
      h.length_eq]
    cases firstRepeated (labels (instructions o' (pieces o' units'))) with
    | some name => rfl
    | none => rfl

/-- Nothing of the text but its commands changes the program. Units of the same names with the
same commands on their lines have the same error, or programs that are equal when their comments
are left out, and that load to the same program memory. -/
theorem translate_of_sameCommands (hb : o.bootstrap = o'.bootstrap)
    (h : List.Forall₂ SameCommands units units') :
    (∀ e, translate o units = .error e ↔ translate o' units' = .error e) ∧
      ∀ p, translate o units = .ok p →
        ∃ p', translate o' units' = .ok p' ∧ p'.hasBootstrap = p.hasBootstrap ∧
          bare p'.instructions = bare p.instructions ∧
          (p.executableCount ≤ maxWord →
            ∃ r, Rom.load p.text = .ok r ∧ Rom.load p'.text = .ok r) := by
  have ht := translate_eq_map_translate hb h
  constructor
  · intro e
    rw [ht]
    cases translate o units with
    | ok p =>
      constructor
      · intro he
        cases he
      · intro he
        cases he
    | error e' => exact Iff.rfl
  · intro p hp
    rw [hp] at ht
    have hbare : bare (instructions o' (pieces o' units')) = bare p.instructions := by
      rw [(translated_of_translate hp).instructions, bare_instructions_of_sameCommands hb h]
    refine ⟨_, ht, rfl, hbare, fun _ => ⟨Rom.link p.instructions, ?_, ?_⟩⟩
    · exact (translated_of_translate hp).load_text
    · rw [(translated_of_translate ht).load_text, ← Rom.link_bare, hbare, Rom.link_bare]

end

/-- A loop with comments, blanks and a long way to write seven. -/
def spacedUnit : SourceUnit :=
  ⟨"Main", "// a loop\n\nlabel L // start\r\n push\tconstant  +007\ngoto L//back"⟩

/-- The same loop without them. -/
def denseUnit : SourceUnit := ⟨"Main", "label L\npush constant 7\ngoto L"⟩

/-- The two loops load alike, though the program of the one quotes its source. -/
theorem translate_of_spacedUnit :
    ∃ p p' r, translate ⟨true, .auto⟩ [spacedUnit] = .ok p ∧
      translate ⟨false, .auto⟩ [denseUnit] = .ok p' ∧
      bare p'.instructions = bare p.instructions ∧
      Rom.load p.text = .ok r ∧ Rom.load p'.text = .ok r := by
  have hb : Options.bootstrap ⟨true, .auto⟩ = Options.bootstrap ⟨false, .auto⟩ := rfl
  have hs : SameCommands spacedUnit denseUnit :=
    ⟨rfl, [.label "L", .push .constant 7, .goto "L"], by rfl, by rfl⟩
  have hp : ∃ p, translate ⟨true, .auto⟩ [spacedUnit] = .ok p ∧ p.executableCount ≤ maxWord :=
    ⟨_, rfl, by decide⟩
  obtain ⟨p, hp, hc⟩ := hp
  obtain ⟨p', hp', -, hbare, hr⟩ := (translate_of_sameCommands hb (.cons hs .nil)).2 p hp
  obtain ⟨r, hr, hr'⟩ := hr hc
  exact ⟨p, p', r, hp, hp', hbare, hr, hr'⟩

end HackVM
