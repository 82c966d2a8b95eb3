import HackVM.Proofs.Reading
import HackVM.Proofs.Routes

/-!
# What a run writes

A run writes as its last act, once, and only if all the stages before have succeeded. So it
either fails and leaves the tree as it is, or it writes the text of the translation to the output
and nothing else.
-/

namespace HackVM

open Assembly FileTree

/-- How a run ends, from what its stages answer. -/
theorem perform_run (t : FileTree) (i : Invocation) :
    t.perform (run i) =
      match t.answer (prepare i) with
      | .error e => (.error e, t)
      | .ok out =>
        match t.write out.path out.text.toUTF8 with
        | .ok t' => (.ok (), t')
        | .error e => (.error (.write out.path e), t) := by
  rw [run, perform_bind, (onlyReads_prepare i).perform_eq]
  cases t.answer (prepare i) with
  | error e => rfl
  | ok out =>
    have hw : t.perform (Disk.write out.path out.text.toUTF8) =
        (.ok (t.tryWrite out.path out.text.toUTF8).1, (t.tryWrite out.path out.text.toUTF8).2) :=
      rfl
    dsimp only
    rw [perform_bind, hw, tryWrite]
    cases t.write out.path out.text.toUTF8 with
    | error e => rfl
    | ok t' => rfl

theorem FileTree.write_eq_ok_iff {t t' : FileTree} {p : Path} {content : ByteArray} :
    t.write p content = .ok t' ↔ ∃ r, t.target p = .ok r ∧ t.insert r (.file content) = t' := by
  rw [FileTree.write, bind_eq_ok_iff]
  simp only [pure_eq_ok_iff]

theorem eq_of_perform_run_error {t t' : FileTree} {i : Invocation} {e : Failure}
    (h : t.perform (run i) = (.error e, t')) : t' = t := by
  rw [perform_run] at h
  split at h
  · cases h
    rfl
  · split at h
    · cases h
    · cases h
      rfl

/-- A run succeeds on the trees where all its stages do and the output can be written. -/
theorem perform_run_eq_ok_iff {t t' : FileTree} {i : Invocation} :
    t.perform (run i) = (.ok (), t') ↔
      ∃ own o files us p path r, Prepared t i own o files us p path ∧ t.target path = .ok r ∧
        t' = t.insert r (.file p.text.toUTF8) := by
  rw [perform_run]
  constructor
  · intro h
    split at h
    · cases h
    · rename_i out hout
      obtain ⟨own, o, files, us, p, hp, htext⟩ := answer_prepare.1 hout
      split at h
      · rename_i t₁ hw
        cases h
        obtain ⟨r, hr, rfl⟩ := write_eq_ok_iff.1 hw
        exact ⟨own, o, files, us, p, out.path, r, hp, hr, by rw [htext]⟩
      · cases h
  · rintro ⟨own, o, files, us, p, path, r, hp, hr, rfl⟩
    have hout : t.answer (prepare i) = .ok ⟨path, p.text⟩ :=
      answer_prepare.2 ⟨own, o, files, us, p, hp, rfl⟩
    rw [hout]
    dsimp only
    rw [write_eq_ok_iff.2 ⟨r, hr, rfl⟩]

namespace FileTree

/-- The second tree is the first one with this content in the file where the path leads: no other
route has another entry, and no path that leads elsewhere reads differently. -/
structure OnlyWritten (t t' : FileTree) (path : Path) (r : Route) (content : ByteArray) :
    Prop where
  target : t.target path = .ok r
  here : t'.get? r = some (.file content)
  elsewhere : ∀ s, s ≠ r → t'.get? s = t.get? s
  workingDirectory : t'.workingDirectory = t.workingDirectory
  read : t'.read path = .ok content
  others : ∀ q, t.route q ≠ .ok r → ∀ bytes, t'.read q = .ok bytes ↔ t.read q = .ok bytes

theorem onlyWritten_insert {t : FileTree} {path : Path} {r : Route} {content : ByteArray}
    (h : t.target path = .ok r) : t.OnlyWritten (t.insert r (.file content)) path r content := by
  have hr : t.get? r ≠ some .directory := (target_eq_ok_iff.1 h).2.2.1
  refine ⟨h, get?_insert_self t (ne_nil_of_not_directory hr) _,
    fun s hs => get?_insert_of_ne t hs _, rfl,
    read_eq_ok_iff.2 ⟨r, find_insert_file_self hr (route_of_target h)⟩, fun q hq bytes => ?_⟩
  rw [read_eq_ok_iff, read_eq_ok_iff]
  exact exists_congr fun s => find_insert_file_iff hr hq

end FileTree

/-- A run that fails leaves the tree as it is. A run that succeeds has written one file, where
its output is asked for or else by default, and the content is the text of the translation of the
sources under the options in force. -/
theorem run_all_or_nothing (t : FileTree) (i : Invocation) :
    match t.perform (run i) with
    | (.error _, t') => t' = t
    | (.ok (), t') => ∃ own o files us p path r, Prepared t i own o files us p path ∧
        t.OnlyWritten t' path r p.text.toUTF8 := by
  split
  · rename_i h
    exact eq_of_perform_run_error h
  · rename_i h
    obtain ⟨own, o, files, us, p, path, r, hp, hr, rfl⟩ := perform_run_eq_ok_iff.1 h
    exact ⟨own, o, files, us, p, path, r, hp, onlyWritten_insert hr⟩

/-! ## A directory with one source -/

def workName : FileName := ⟨"work", by decide⟩

def mainName : FileName := ⟨"Main.vm", by decide⟩

def configName : FileName := ⟨"vmt.json", by decide⟩

def mainText : String := "push constant 7\npop static 0\n"

def configText : String := "\x7b\"bootstrap\": \"never\"\x7d"

/-- A source and a configuration file, side by side in the working directory. -/
def workTree : FileTree where
  workingDirectory := [workName]
  entries := [([workName], .directory), ([workName, mainName], .file mainText.toUTF8),
    ([workName, configName], .file configText.toUTF8)]
  distinct := by decide

theorem ofJson?_configText : Options.ofJson? configText = some ⟨true, .never⟩ := by decide +kernel

theorem hasOptions_workTree : workTree.HasOptions (some ⟨"vmt.json"⟩) ⟨true, .never⟩ :=
  ⟨configText, hasText_of_read rfl, ofJson?_configText⟩

def workUnit : SourceUnit := ⟨"Main", mainText⟩

/-- Neither comments nor the policy of the configuration file, and the output elsewhere. -/
def flaggedInvocation : Invocation :=
  ⟨⟨"Main.vm"⟩, some ⟨"out.asm"⟩, some ⟨"vmt.json"⟩, true, some .always, 0⟩

theorem prepared_flaggedInvocation {p : Program}
    (hp : translate ⟨false, .always⟩ [workUnit] = .ok p) :
    Prepared workTree flaggedInvocation ⟨true, .never⟩ ⟨false, .always⟩ [⟨"Main.vm"⟩] [workUnit] p
      ⟨"out.asm"⟩ where
  options := hasOptions_workTree
  inForce := Invocation.inForce_iff.2 rfl
  sources := .file rfl (by decide)
  units := .cons ⟨hasText_of_read rfl, by decide⟩ .nil
  program := hp
  output := rfl

/-- The text of a program begins with that of its first instruction. -/
theorem Program.head?_text {p : Program} {i : Instruction} (h : p.instructions.head? = some i) :
    p.text.toList.head? = i.text.toList.head?.or (some '\n') := by
  obtain ⟨rest, hr⟩ := List.head?_eq_some_iff.1 h
  rw [Program.text, Instruction.toList_render, hr, List.flatMap_cons, List.head?_append,
    List.head?_append, Option.or_assoc]
  rfl

/-- The configuration file leaves the comments in and rules the bootstrap out, and the command line
asks for the opposite. What is written is the translation that the command line asks for. -/
theorem run_of_flaggedInvocation :
    ∃ t' p q r, workTree.perform (run flaggedInvocation) = (.ok (), t') ∧
      workTree.HasOptions flaggedInvocation.config ⟨true, .never⟩ ∧
      translate ⟨false, .always⟩ [workUnit] = .ok p ∧
      translate ⟨true, .never⟩ [workUnit] = .ok q ∧ p.text ≠ q.text ∧
      workTree.OnlyWritten t' ⟨"out.asm"⟩ r p.text.toUTF8 := by
  obtain ⟨p, hp, hfirst⟩ : ∃ p, translate ⟨false, .always⟩ [workUnit] = .ok p ∧
      p.instructions.head? = some (.load (.value 256)) := ⟨_, rfl, rfl⟩
  obtain ⟨q, hq, hfirst'⟩ : ∃ q, translate ⟨true, .never⟩ [workUnit] = .ok q ∧
      q.instructions.head? = some (.comment "push constant 7") := ⟨_, rfl, rfl⟩
  have hprepared := prepared_flaggedInvocation hp
  have ht : workTree.target ⟨"out.asm"⟩ = .ok [workName, ⟨"out.asm", by decide⟩] := rfl
  have hrun := perform_run_eq_ok_iff.2 ⟨_, _, _, _, p, _, _, hprepared, ht, rfl⟩
  have h := run_all_or_nothing workTree flaggedInvocation
  rw [hrun] at h
  obtain ⟨own, o, files, us, p', path, r, hp', hw⟩ := h
  obtain ⟨-, -, -, -, rfl, rfl⟩ := hprepared.unique hp'
  refine ⟨_, p', q, r, hrun, hasOptions_workTree, hp, hq, fun he => ?_, hw⟩
  -- the one text begins with an instruction and the other with a comment
  have htext := Program.head?_text hfirst
  rw [he, Program.head?_text hfirst'] at htext
  exact absurd htext (by decide)

end HackVM
