import HackVM.Proofs.Grammar
import HackVM.Run
import Mathlib.Data.List.Forall2

/-!
# What a run reads

A run carries out its stages on a file tree one after the other, and each of them may fail. All
stages but the last one only read: they leave the tree as it is, and what they answer depends on
the tree alone. For each of them the answers are told without the computation, and then those of
the stages together.
-/

namespace HackVM

/-- A computation on a file tree that may fail. -/
abbrev OnTree (α : Type) := ExceptT Failure (StateM FileTree) α

namespace FileTree

variable {α β : Type}

/-- Carry the computation out: its answer, and the tree behind it. -/
def perform (t : FileTree) (x : OnTree α) : Except Failure α × FileTree := x.run.run t

/-- What the computation answers. -/
def answer (t : FileTree) (x : OnTree α) : Except Failure α := (t.perform x).1

theorem perform_bind (t : FileTree) (x : OnTree α) (f : α → OnTree β) :
    t.perform (x >>= f) =
      match t.perform x with
      | (.ok a, t') => t'.perform (f a)
      | (.error e, t') => (.error e, t') := by
  show (match t.perform x with
    | (a, t') => StateT.run (ExceptT.bindCont f a) t') = _
  cases t.perform x with
  | mk a t' => cases a <;> rfl

end FileTree

/-- The computation leaves every tree as it is. -/
def OnlyReads {α : Type} (x : OnTree α) : Prop := ∀ t : FileTree, (t.perform x).2 = t

open FileTree

section

variable {α β : Type} {x : OnTree α} {f : α → OnTree β} {t : FileTree}

theorem OnlyReads.perform_eq (h : OnlyReads x) (t : FileTree) : t.perform x = (t.answer x, t) :=
  Prod.ext rfl (h t)

theorem OnlyReads.bind (hx : OnlyReads x) (hf : ∀ a, OnlyReads (f a)) : OnlyReads (x >>= f) := by
  intro t
  rw [perform_bind, hx.perform_eq]
  cases t.answer x with
  | ok a => exact hf a t
  | error e => rfl

theorem onlyReads_pure (a : α) : OnlyReads (pure a) := fun _ => rfl

theorem onlyReads_throw (e : Failure) : OnlyReads (throw e : OnTree α) := fun _ => rfl

/-- Behind a computation that only reads, the next one finds the same tree. -/
theorem FileTree.answer_bind (hx : OnlyReads x) (t : FileTree) (f : α → OnTree β) :
    t.answer (x >>= f) = t.answer x >>= fun a => t.answer (f a) := by
  rw [answer, perform_bind, hx.perform_eq]
  cases t.answer x with
  | ok a => rfl
  | error e => rfl

@[simp] theorem FileTree.answer_pure (t : FileTree) (a : α) : t.answer (pure a) = .ok a := rfl

@[simp] theorem FileTree.answer_throw (t : FileTree) (e : Failure) :
    t.answer (throw e : OnTree α) = .error e := rfl

end

/-! ## Access to the tree -/

section

variable (p : Path)

theorem onlyReads_isDirectory : OnlyReads (Disk.isDirectory p : OnTree Bool) := fun _ => rfl

theorem onlyReads_isFile : OnlyReads (Disk.isFile p : OnTree Bool) := fun _ => rfl

theorem onlyReads_names : OnlyReads (Disk.names p : OnTree _) := fun _ => rfl

theorem onlyReads_read : OnlyReads (Disk.read p : OnTree _) := fun _ => rfl

theorem onlyReads_ownName : OnlyReads (Disk.ownName p : OnTree _) := fun _ => rfl

namespace FileTree

variable (t : FileTree)

theorem answer_isDirectory : t.answer (Disk.isDirectory p) = .ok (t.isDirectory p) := rfl

theorem answer_isFile : t.answer (Disk.isFile p) = .ok (t.isFile p) := rfl

theorem answer_names :
    t.answer (Disk.names p) = .ok ((t.names p).map fun names => names.map FileName.text) := rfl

theorem answer_read : t.answer (Disk.read p) = .ok (t.read p) := rfl

theorem answer_ownName :
    t.answer (Disk.ownName p) = .ok ((t.ownName p).map fun name => name.map FileName.text) := rfl

end FileTree

end

/-! ## Texts -/

namespace FileTree

/-- The path leads to a file whose bytes are this text in UTF-8. -/
def HasText (t : FileTree) (p : Path) (text : String) : Prop :=
  ∃ bytes, t.read p = .ok bytes ∧ String.fromUTF8? bytes = some text

/-- The bytes of a text are read as this text. -/
theorem hasText_of_read {t : FileTree} {p : Path} {text : String}
    (h : t.read p = .ok text.toUTF8) : t.HasText p text := by
  refine ⟨text.toUTF8, h, ?_⟩
  unfold String.fromUTF8?
  rw [String.toUTF8_eq_toByteArray, dif_pos text.isValidUTF8]
  rfl

/-- The options that a configuration file holds, or the default ones without such a file. -/
def HasOptions (t : FileTree) : Option Path → Options → Prop
  | none, o => o = .default
  | some p, o => ∃ text, t.HasText p text ∧ Options.ofJson? text = some o

/-- The unit in a file has the name of the file without its extension. -/
def HasUnit (t : FileTree) (p : Path) (u : SourceUnit) : Prop :=
  t.HasText p u.source ∧ p.stem? = some u.name

end FileTree

section

variable {t : FileTree} {p : Path}

theorem onlyReads_readText (p : Path) (failure : FileError → Failure) :
    OnlyReads (readText p failure) := by
  refine (onlyReads_read p).bind fun r => ?_
  cases r with
  | error e => exact onlyReads_throw _
  | ok bytes =>
    dsimp only
    split
    · exact onlyReads_pure _
    · exact onlyReads_throw _

theorem answer_readText {failure : FileError → Failure} {text : String} :
    t.answer (readText p failure) = .ok text ↔ t.HasText p text := by
  rw [readText, answer_bind (onlyReads_read p), answer_read]
  cases hb : t.read p with
  | error e => simp [HasText, hb, bind, Except.bind]
  | ok bytes =>
    cases hs : String.fromUTF8? bytes with
    | none => simp [HasText, hb, hs, bind, Except.bind]
    | some s => simp [HasText, hb, hs, bind, Except.bind]

theorem onlyReads_loadOptions (config : Option Path) : OnlyReads (loadOptions config) := by
  cases config with
  | none => exact onlyReads_pure _
  | some p =>
    refine (onlyReads_readText p _).bind fun text => ?_
    split
    · exact onlyReads_pure _
    · exact onlyReads_throw _

theorem answer_loadOptions {config : Option Path} {o : Options} :
    t.answer (loadOptions config) = .ok o ↔ t.HasOptions config o := by
  cases config with
  | none =>
    show (.ok .default : Except Failure Options) = .ok o ↔ o = .default
    rw [Except.ok.injEq, eq_comm]
  | some p =>
    rw [loadOptions, answer_bind (onlyReads_readText p _), bind_eq_ok_iff]
    simp only [answer_readText]
    refine exists_congr fun text => and_congr_right fun _ => ?_
    cases ho : Options.ofJson? text with
    | none => simp
    | some o' => simp

theorem onlyReads_lift {α : Type} (r : Except Failure α) : OnlyReads (liftM r : OnTree α) := by
  cases r with
  | error e => exact onlyReads_throw e
  | ok a => exact onlyReads_pure a

theorem FileTree.answer_lift {α : Type} (t : FileTree) (r : Except Failure α) :
    t.answer (liftM r) = r := by
  cases r <;> rfl

theorem unitName_eq_ok_iff {name : String} : unitName p = .ok name ↔ p.stem? = some name := by
  rw [unitName]
  cases p.stem? <;> simp

theorem onlyReads_readUnit (p : Path) : OnlyReads (readUnit p) :=
  (onlyReads_readText p _).bind fun _ => (onlyReads_lift _).bind fun _ => onlyReads_pure _

theorem answer_readUnit {u : SourceUnit} :
    t.answer (readUnit p) = .ok u ↔ t.HasUnit p u := by
  rw [readUnit, answer_bind (onlyReads_readText p _), bind_eq_ok_iff]
  constructor
  · rintro ⟨text, ht, h⟩
    rw [answer_bind (onlyReads_lift _), answer_lift, bind_eq_ok_iff] at h
    obtain ⟨name, hn, hu⟩ := h
    cases hu
    exact ⟨answer_readText.1 ht, unitName_eq_ok_iff.1 hn⟩
  · rintro ⟨ht, hn⟩
    refine ⟨u.source, answer_readText.2 ht, ?_⟩
    rw [answer_bind (onlyReads_lift _), answer_lift, unitName_eq_ok_iff.2 hn]
    rfl

theorem readUnits_cons (p : Path) (ps : List Path) :
    (readUnits (p :: ps) : OnTree (List SourceUnit)) =
      readUnit p >>= fun u => readUnits ps >>= fun us => pure (u :: us) :=
  List.mapM_cons

theorem onlyReads_readUnits (ps : List Path) : OnlyReads (readUnits ps) := by
  induction ps with
  | nil => exact onlyReads_pure _
  | cons p ps ih =>
    rw [readUnits_cons]
    exact (onlyReads_readUnit p).bind fun _ => ih.bind fun _ => onlyReads_pure _

theorem answer_readUnits {ps : List Path} {us : List SourceUnit} :
    t.answer (readUnits ps) = .ok us ↔ List.Forall₂ t.HasUnit ps us := by
  induction ps generalizing us with
  | nil =>
    show (.ok [] : Except Failure (List SourceUnit)) = .ok us ↔ _
    rw [Except.ok.injEq, List.forall₂_nil_left_iff, eq_comm]
  | cons p ps ih =>
    rw [readUnits_cons, answer_bind (onlyReads_readUnit p), bind_eq_ok_iff,
      List.forall₂_cons_left_iff]
    constructor
    · rintro ⟨u, hu, h⟩
      rw [answer_bind (onlyReads_readUnits ps), bind_eq_ok_iff] at h
      obtain ⟨rest, hr, hs⟩ := h
      cases hs
      exact ⟨u, rest, answer_readUnit.1 hu, ih.1 hr, rfl⟩
    · rintro ⟨u, rest, hu, hr, rfl⟩
      refine ⟨u, answer_readUnit.2 hu, ?_⟩
      rw [answer_bind (onlyReads_readUnits ps), bind_eq_ok_iff]
      exact ⟨rest, ih.2 hr, rfl⟩

end

/-! ## Sources -/

namespace FileTree

/-- The paths are the source files at a path: the file itself, or the files of a directory that
are named like sources, in order and at least one. -/
inductive HasSources (t : FileTree) (p : Path) : List Path → Prop
  | file : t.isFile p = true → p.isSource = true → HasSources t p [p]
  | directory {names : List FileName} : t.names p = .ok names →
    (sourcesAmong p (names.map FileName.text)).filter t.isFile ≠ [] →
    HasSources t p ((sourcesAmong p (names.map FileName.text)).filter t.isFile)

/-- Where the output goes if no other path is given: beside a source file, or into a directory
under its own name. -/
inductive DefaultOutput (t : FileTree) (p : Path) : Path → Prop
  | file : t.isDirectory p = false → DefaultOutput t p (p.withExtension outputExtension)
  | directory {r : Route} {name : FileName} : t.find p = .ok (r, .directory) →
    r.getLast? = some name → DefaultOutput t p (p.join (name.text ++ "." ++ outputExtension))

theorem isDirectory_iff {t : FileTree} {p : Path} :
    t.isDirectory p = true ↔ ∃ r, t.find p = .ok (r, .directory) := by
  rw [isDirectory]
  split
  · rename_i r h
    simp [h]
  · rename_i h
    simp only [Bool.false_eq_true, false_iff, not_exists]
    exact h

theorem isFile_iff {t : FileTree} {p : Path} :
    t.isFile p = true ↔ ∃ r content, t.find p = .ok (r, .file content) := by
  rw [isFile]
  split
  · rename_i r content h
    simp [h]
  · rename_i h
    simp only [Bool.false_eq_true, false_iff, not_exists]
    exact h

theorem names_eq_ok_iff {t : FileTree} {p : Path} {names : List FileName} :
    t.names p = .ok names ↔
      ∃ r, t.find p = .ok (r, .directory) ∧ t.entries.filterMap (nameIn? r) = names := by
  rw [FileTree.names, bind_eq_ok_iff]
  constructor
  · rintro ⟨⟨r, e⟩, hf, h⟩
    cases e with
    | directory => exact ⟨r, hf, pure_eq_ok_iff.1 h⟩
    | file content => exact absurd h throw_ne_ok
  · rintro ⟨r, hf, h⟩
    exact ⟨_, hf, pure_eq_ok_iff.2 h⟩

theorem read_eq_ok_iff {t : FileTree} {p : Path} {content : ByteArray} :
    t.read p = .ok content ↔ ∃ r, t.find p = .ok (r, .file content) := by
  rw [FileTree.read, bind_eq_ok_iff]
  constructor
  · rintro ⟨⟨r, e⟩, hf, h⟩
    cases e with
    | directory => exact absurd h throw_ne_ok
    | file c => exact ⟨r, by rw [hf, pure_eq_ok_iff.1 h]⟩
  · rintro ⟨r, hf⟩
    exact ⟨_, hf, rfl⟩

end FileTree

section

variable {t : FileTree} {p : Path}

theorem onlyReads_filesAmong (ps : List Path) : OnlyReads (filesAmong ps) := by
  induction ps with
  | nil => exact onlyReads_pure _
  | cons p ps ih =>
    refine (onlyReads_isFile p).bind fun b => ?_
    cases b with
    | true => exact ih.bind fun _ => onlyReads_pure _
    | false => exact ih

theorem answer_filesAmong (t : FileTree) (ps : List Path) :
    t.answer (filesAmong ps) = .ok (ps.filter t.isFile) := by
  induction ps with
  | nil => rfl
  | cons p ps ih =>
    rw [filesAmong, answer_bind (onlyReads_isFile p), answer_isFile]
    show t.answer (if t.isFile p = true then _ else _) = _
    cases hf : t.isFile p with
    | true =>
      rw [if_pos rfl, answer_bind (onlyReads_filesAmong ps), ih, List.filter_cons_of_pos hf]
      rfl
    | false =>
      rw [if_neg Bool.false_ne_true, ih, List.filter_cons_of_neg (by simp [hf])]

theorem onlyReads_discover (p : Path) : OnlyReads (discover p) := by
  refine (onlyReads_isDirectory p).bind fun b => ?_
  cases b with
  | true =>
    refine (onlyReads_names p).bind fun r => ?_
    cases r with
    | error e => exact onlyReads_throw _
    | ok names =>
      refine (onlyReads_filesAmong _).bind fun found => ?_
      dsimp only
      split
      · exact onlyReads_throw _
      · exact onlyReads_pure _
  | false =>
    refine (onlyReads_isFile p).bind fun b => ?_
    split
    · split
      · exact onlyReads_pure _
      · exact onlyReads_throw _
    · exact onlyReads_throw _

theorem isFile_of_find_directory {r : Route} (h : t.find p = .ok (r, .directory)) :
    t.isFile p = false := by
  simp [isFile, h]

theorem answer_discover_directory {r : Route} (h : t.find p = .ok (r, .directory)) :
    t.answer (discover p) =
      let found := (sourcesAmong p ((t.entries.filterMap (nameIn? r)).map FileName.text)).filter
        t.isFile
      if found.isEmpty then .error (.noSources p) else .ok found := by
  have hn : t.names p = .ok (t.entries.filterMap (nameIn? r)) := names_eq_ok_iff.2 ⟨r, h, rfl⟩
  rw [discover, answer_bind (onlyReads_isDirectory p), answer_isDirectory,
    isDirectory_iff.2 ⟨r, h⟩]
  show t.answer (Disk.names p >>= _) = _
  rw [answer_bind (onlyReads_names p), answer_names, hn]
  show t.answer (filesAmong _ >>= _) = _
  rw [answer_bind (onlyReads_filesAmong _), answer_filesAmong]
  show t.answer (if List.isEmpty _ = true then _ else _) =
    if List.isEmpty _ = true then _ else _
  split
  · rfl
  · rfl

theorem answer_discover_other (h : t.isDirectory p = false) :
    t.answer (discover p) =
      if t.isFile p then if p.isSource then .ok [p] else .error (.notASource p)
      else .error (.missing p) := by
  rw [discover, answer_bind (onlyReads_isDirectory p), answer_isDirectory, h]
  show t.answer (Disk.isFile p >>= _) = _
  rw [answer_bind (onlyReads_isFile p), answer_isFile]
  show t.answer (if t.isFile p = true then _ else _) = _
  split
  · split <;> rfl
  · rfl

theorem answer_discover {files : List Path} :
    t.answer (discover p) = .ok files ↔ t.HasSources p files := by
  cases hd : t.isDirectory p with
  | true =>
    obtain ⟨r, hr⟩ := isDirectory_iff.1 hd
    have hn : t.names p = .ok (t.entries.filterMap (nameIn? r)) := names_eq_ok_iff.2 ⟨r, hr, rfl⟩
    rw [answer_discover_directory hr]
    constructor
    · intro h
      dsimp only at h
      split at h
      · cases h
      · rename_i hne
        cases h
        exact .directory hn (by simpa using hne)
    · intro h
      cases h with
      | file hf _ =>
        rw [isFile_of_find_directory hr] at hf
        cases hf
      | directory hm hne =>
        rw [hn] at hm
        cases hm
        exact if_neg (by simpa using hne)
  | false =>
    rw [answer_discover_other hd]
    constructor
    · intro h
      split at h
      · rename_i hf
        split at h
        · rename_i hs
          cases h
          exact .file hf hs
        · cases h
      · cases h
    · intro h
      cases h with
      | file hf hs => rw [if_pos hf, if_pos hs]
      | directory hm _ =>
        obtain ⟨r, hr, -⟩ := names_eq_ok_iff.1 hm
        rw [isDirectory_iff.2 ⟨r, hr⟩] at hd
        cases hd

end

/-! ## Output -/

theorem FileTree.ownName_of_find {t : FileTree} {p : Path} {r : Route} {e : Entry}
    (h : t.find p = .ok (r, e)) : t.ownName p = .ok r.getLast? := by
  rw [FileTree.ownName, h]
  rfl

theorem onlyReads_defaultOutput (p : Path) : OnlyReads (defaultOutput p) := by
  refine (onlyReads_isDirectory p).bind fun b => ?_
  cases b with
  | true =>
    refine (onlyReads_ownName p).bind fun r => ?_
    split
    · exact onlyReads_throw _
    · exact onlyReads_throw _
    · exact onlyReads_pure _
  | false => exact onlyReads_pure _

theorem answer_defaultOutput {t : FileTree} {p path : Path} :
    t.answer (defaultOutput p) = .ok path ↔ t.DefaultOutput p path := by
  rw [defaultOutput, answer_bind (onlyReads_isDirectory p), answer_isDirectory]
  cases hd : t.isDirectory p with
  | true =>
    obtain ⟨r, hr⟩ := isDirectory_iff.1 hd
    show t.answer (Disk.ownName p >>= _) = _ ↔ _
    rw [answer_bind (onlyReads_ownName p), answer_ownName, ownName_of_find hr]
    constructor
    · intro h
      cases hl : r.getLast? with
      | none =>
        rw [hl] at h
        cases h
      | some name =>
        rw [hl] at h
        cases h
        exact .directory hr hl
    · intro h
      cases h with
      | file hf =>
        rw [hd] at hf
        cases hf
      | directory hr' hl =>
        cases hr.symm.trans hr'
        rw [hl]
        rfl
  | false =>
    show (.ok (p.withExtension outputExtension) : Except Failure Path) = .ok path ↔ _
    rw [Except.ok.injEq]
    constructor
    · rintro rfl
      exact .file hd
    · intro h
      cases h with
      | file _ => rfl
      | directory hr _ =>
        rw [isDirectory_iff.2 ⟨_, hr⟩] at hd
        cases hd

/-! ## Options in force -/

/-- The options `o` are in force under an invocation whose configuration has the options `own`.
`--no-comments` takes the comments out whatever the configuration says, `--bootstrap` goes before
its policy, and a flag that is not given leaves its field alone. -/
structure Invocation.InForce (i : Invocation) (own o : Options) : Prop where
  noComments : i.noComments = true → o.sourceComments = false
  ownComments : i.noComments = false → o.sourceComments = own.sourceComments
  askedPolicy : ∀ policy, i.bootstrap = some policy → o.bootstrap = policy
  ownPolicy : i.bootstrap = none → o.bootstrap = own.bootstrap

/-- There is one way for options to be in force. -/
theorem Invocation.inForce_iff {i : Invocation} {own o : Options} :
    i.InForce own o ↔ own.override i.noComments i.bootstrap = o := by
  obtain ⟨source, output, config, noComments, policy, verbosity⟩ := i
  constructor
  · intro h
    have hcomments : (own.sourceComments && !noComments) = o.sourceComments := by
      cases noComments with
      | true => rw [h.noComments rfl, Bool.not_true, Bool.and_false]
      | false => rw [h.ownComments rfl, Bool.not_false, Bool.and_true]
    have hpolicy : policy.getD own.bootstrap = o.bootstrap := by
      cases policy with
      | none => exact (h.ownPolicy rfl).symm
      | some asked => exact (h.askedPolicy asked rfl).symm
    rw [Options.override, hcomments, hpolicy]
  · rintro rfl
    refine ⟨?_, ?_, ?_, ?_⟩
    · rintro rfl
      exact Bool.and_false _
    · rintro rfl
      exact Bool.and_true _
    · rintro asked rfl
      rfl
    · rintro rfl
      rfl

/-! ## All stages but the writing -/

namespace FileTree

/-- The path that an invocation asks for, or else the default one. -/
def OutputAt (t : FileTree) (i : Invocation) (path : Path) : Prop :=
  match i.output with
  | some asked => path = asked
  | none => t.DefaultOutput i.source path

end FileTree

/-- What a run has in hand before it writes: the options of the configuration and those in force,
the source files and their units, the program and the path of the output. -/
structure Prepared (t : FileTree) (i : Invocation) (own o : Options) (files : List Path)
    (us : List SourceUnit) (p : Program) (path : Path) : Prop where
  options : t.HasOptions i.config own
  inForce : i.InForce own o
  sources : t.HasSources i.source files
  units : List.Forall₂ t.HasUnit files us
  program : translate o us = .ok p
  output : t.OutputAt i path

/-- The translation as a stage of a run. -/
def translated (source : Path) (o : Options) (us : List SourceUnit) : Except Failure Program :=
  (translate o us).mapError (.translate source)

/-- The choice of the output as a stage of a run. -/
def outputOf (i : Invocation) : OnTree Path :=
  match i.output with
  | some path => pure path
  | none => defaultOutput i.source

theorem prepare_eq (i : Invocation) :
    (prepare i : OnTree Output) =
      loadOptions i.config >>= fun o => discover i.source >>= fun files =>
        readUnits files >>= fun us =>
          liftM (translated i.source (o.override i.noComments i.bootstrap) us) >>= fun p =>
            outputOf i >>= fun path => pure ⟨path, p.text⟩ := by
  unfold prepare outputOf translated
  refine bind_congr fun o => bind_congr fun files => bind_congr fun us => ?_
  cases translate (o.override i.noComments i.bootstrap) us with
  | error e => rfl
  | ok p =>
    cases i.output with
    | some path => rfl
    | none => rfl

theorem onlyReads_outputOf (i : Invocation) : OnlyReads (outputOf i) := by
  unfold outputOf
  split
  · exact onlyReads_pure _
  · exact onlyReads_defaultOutput _

theorem answer_outputOf {t : FileTree} {i : Invocation} {path : Path} :
    t.answer (outputOf i) = .ok path ↔ t.OutputAt i path := by
  unfold outputOf OutputAt
  cases i.output with
  | some asked => rw [answer_pure, Except.ok.injEq, eq_comm]
  | none => exact answer_defaultOutput

theorem onlyReads_prepare (i : Invocation) : OnlyReads (prepare i) := by
  rw [prepare_eq]
  exact (onlyReads_loadOptions _).bind fun _ => (onlyReads_discover _).bind fun _ =>
    (onlyReads_readUnits _).bind fun _ => (onlyReads_lift _).bind fun _ =>
      (onlyReads_outputOf i).bind fun _ => onlyReads_pure _

theorem translated_eq_ok_iff {source : Path} {o : Options} {us : List SourceUnit} {p : Program} :
    translated source o us = .ok p ↔ translate o us = .ok p := by
  unfold translated
  cases translate o us with
  | error e => simp [Except.mapError]
  | ok p => simp [Except.mapError]

/-- The stages before the writing succeed together, and then they answer the text of the
translation of what they have read. -/
theorem answer_prepare {t : FileTree} {i : Invocation} {out : Output} :
    t.answer (prepare i) = .ok out ↔
      ∃ own o files us p, Prepared t i own o files us p out.path ∧ out.text = p.text := by
  rw [prepare_eq]
  simp only [answer_bind (onlyReads_loadOptions _), answer_bind (onlyReads_discover _),
    answer_bind (onlyReads_readUnits _), answer_bind (onlyReads_lift _), answer_lift,
    answer_bind (onlyReads_outputOf i), answer_pure, bind_eq_ok_iff, answer_loadOptions,
    answer_discover, answer_readUnits, translated_eq_ok_iff, answer_outputOf]
  constructor
  · rintro ⟨own, ho, files, hf, us, hu, p, hp, path, hpath, h⟩
    cases h
    exact ⟨own, _, files, us, p, ⟨ho, Invocation.inForce_iff.2 rfl, hf, hu, hp, hpath⟩, rfl⟩
  · rintro ⟨own, o, files, us, p, ⟨ho, hforce, hf, hu, hp, hpath⟩, ht⟩
    obtain rfl := Invocation.inForce_iff.1 hforce
    refine ⟨own, ho, files, hf, us, hu, p, hp, out.path, hpath, ?_⟩
    rw [← ht]

/-- There is one thing to have in hand. -/
theorem Prepared.unique {t : FileTree} {i : Invocation} {own own' o o' : Options}
    {files files' : List Path} {us us' : List SourceUnit} {p p' : Program} {path path' : Path}
    (h : Prepared t i own o files us p path) (h' : Prepared t i own' o' files' us' p' path') :
    own' = own ∧ o' = o ∧ files' = files ∧ us' = us ∧ p' = p ∧ path' = path := by
  have hown := (answer_loadOptions.2 h'.options).symm.trans (answer_loadOptions.2 h.options)
  have hfiles := (answer_discover.2 h'.sources).symm.trans (answer_discover.2 h.sources)
  have hpath := (answer_outputOf.2 h'.output).symm.trans (answer_outputOf.2 h.output)
  cases hown
  cases hfiles
  cases hpath
  obtain rfl := (Invocation.inForce_iff.1 h.inForce).symm.trans
    (Invocation.inForce_iff.1 h'.inForce)
  have hunits := (answer_readUnits.2 h'.units).symm.trans (answer_readUnits.2 h.units)
  cases hunits
  cases h'.program.symm.trans h.program
  exact ⟨rfl, rfl, rfl, rfl, rfl, rfl⟩

end HackVM
