import HackVM.Proofs.Writing

/-!
# Running again

By default the output has the extension `asm`, and sources have the extension `vm`. So the output
is written beside the sources, into the directory that is listed for them, but over none of them,
and it is not taken for a source afterwards. A second run reads what the first one has read, writes
what the first one has written, and leaves the tree as it is.
-/

namespace HackVM

open FileTree

/-! ## Sources in order -/

/-- The names that are kept stand in the order that they have on their own. -/
theorem filter_inOrder (f : String → Bool) (names : List String) :
    (inOrder names).filter f = inOrder (names.filter f) := by
  have hs : inOrder ((inOrder names).filter f) = (inOrder names).filter f :=
    List.mergeSort_of_pairwise ((pairwise_inOrder names).filter f)
  rw [← hs]
  exact inOrder_eq_of_perm ((inOrder_perm names).filter f)

theorem sourcesAmong_eq (directory : Path) (names : List String) :
    sourcesAmong directory names =
      (inOrder (names.filter fun n => (directory.join n).isSource)).map directory.join := by
  rw [sourcesAmong, List.filter_map, filter_inOrder]
  rfl

theorem isSource_of_mem_sourcesAmong {directory p : Path} {names : List String}
    (h : p ∈ sourcesAmong directory names) : p.isSource = true :=
  (List.mem_filter.1 h).2

namespace FileName

/-- The name is one of a source file. -/
def isSource (n : FileName) : Bool := n.extension? == some sourceExtension

end FileName

theorem sourcesAmong_text (directory : Path) (names : List FileName) :
    sourcesAmong directory (names.map FileName.text) =
      (inOrder ((names.filter FileName.isSource).map FileName.text)).map directory.join := by
  have hf : (fun n => (directory.join n).isSource) ∘ FileName.text = FileName.isSource := by
    funext n
    rw [Function.comp_apply, Path.isSource, Path.extension?_join, FileName.isSource]
  rw [sourcesAmong_eq, List.filter_map, hf]

/-! ## The default output -/

theorem FileTree.DefaultOutput.extension? {t : FileTree} {p path : Path} {r : Route}
    (h : t.DefaultOutput p path) (hr : t.target path = .ok r) :
    path.extension? = some outputExtension := by
  cases h with
  | file _ =>
    exact (Path.extension?_withExtension p (by decide) (by decide) (by decide)).resolve_left
      (lastPiece?_of_target hr)
  | directory _ _ => exact Path.extension?_join_append p _ (by decide) (by decide) (by decide)

/-! ## Behind the write -/

namespace FileTree

section

variable {t : FileTree} {r : Route} {content : ByteArray}

theorem filter_names_insert (hx : Route.extension? r ≠ some sourceExtension) (d : Route)
    (e : Entry) :
    ((t.insert r e).entries.filterMap (nameIn? d)).filter FileName.isSource =
      (t.entries.filterMap (nameIn? d)).filter FileName.isSource := by
  -- what is at the route is not named like a source, neither before nor behind the write
  have hnone : ∀ x : Route × Entry, x.1 = r → (nameIn? d x).filter FileName.isSource = none := by
    rintro x rfl
    rw [nameIn?]
    split
    · rw [Option.filter_eq_none_iff]
      intro n hn
      rw [Route.extension?, hn] at hx
      simpa [FileName.isSource] using hx
    · rfl
  rw [List.filter_filterMap, List.filter_filterMap]
  show ((r, e) :: t.entries.filter fun x => x.1 != r).filterMap
    (fun x => (nameIn? d x).filter FileName.isSource) = _
  rw [List.filterMap_cons_none (f := fun x => (nameIn? d x).filter FileName.isSource)
    (hnone (r, e) rfl), List.filterMap_filter]
  refine List.filterMap_congr fun x _ => ?_
  by_cases hk : x.1 = r
  · rw [if_neg (by simp [hk]), hnone x hk]
  · rw [if_pos (by simpa using hk)]

section

variable (hr : t.get? r ≠ some .directory)

include hr

theorem isDirectory_insert_file (p : Path) :
    (t.insert r (.file content)).isDirectory p = t.isDirectory p := by
  rw [Bool.eq_iff_iff, isDirectory_iff, isDirectory_iff]
  exact exists_congr fun s => find_insert_file_directory_iff hr

theorem DefaultOutput.insert_file {p path : Path} (h : t.DefaultOutput p path) :
    (t.insert r (.file content)).DefaultOutput p path := by
  cases h with
  | file hd => exact .file (by rw [isDirectory_insert_file hr, hd])
  | directory hd hl => exact .directory ((find_insert_file_directory_iff hr).2 hd) hl

theorem isFile_insert_file {p : Path} (hp : t.route p ≠ .ok r) :
    (t.insert r (.file content)).isFile p = t.isFile p := by
  rw [Bool.eq_iff_iff, isFile_iff, isFile_iff]
  simp only [find_insert_file_iff hr hp]

theorem hasText_insert_file_iff {p : Path} (hp : t.route p ≠ .ok r) {text : String} :
    (t.insert r (.file content)).HasText p text ↔ t.HasText p text := by
  simp only [HasText, read_eq_ok_iff, find_insert_file_iff hr hp]

theorem HasOptions.insert_file {config : Option Path} {o : Options}
    (hc : ∀ c, config = some c → t.route c ≠ .ok r) (h : t.HasOptions config o) :
    (t.insert r (.file content)).HasOptions config o := by
  cases config with
  | none => exact h
  | some c =>
    obtain ⟨text, ht, ho⟩ := h
    exact ⟨text, (hasText_insert_file_iff hr (hc c rfl)).2 ht, ho⟩

end

section

variable (hx : Route.extension? r ≠ some sourceExtension)

include hx

/-- No source is where the name has another extension. -/
theorem route_ne_of_isSource {p : Path} (hp : p.isSource = true) : t.route p ≠ .ok r :=
  fun h => hx (extension?_of_route h (eq_of_beq hp))

variable (hr : t.get? r ≠ some .directory)

include hr

theorem HasSources.insert_file {p : Path} {files : List Path} (h : t.HasSources p files) :
    (t.insert r (.file content)).HasSources p files := by
  cases h with
  | file hf hs =>
    exact .file (by rw [isFile_insert_file hr (route_ne_of_isSource hx hs), hf]) hs
  | directory hn hne =>
    obtain ⟨d, hd, rfl⟩ := names_eq_ok_iff.1 hn
    have hn' : (t.insert r (.file content)).names p =
        .ok ((t.insert r (.file content)).entries.filterMap (nameIn? d)) :=
      names_eq_ok_iff.2 ⟨d, (find_insert_file_directory_iff hr).2 hd, rfl⟩
    -- the listing of the directory may have one name more, which is no source
    have hfound : (sourcesAmong p ((t.entries.filterMap (nameIn? d)).map FileName.text)).filter
        t.isFile = (sourcesAmong p (((t.insert r (.file content)).entries.filterMap
          (nameIn? d)).map FileName.text)).filter (t.insert r (.file content)).isFile := by
      rw [sourcesAmong_text p ((t.insert r _).entries.filterMap _), filter_names_insert hx,
        ← sourcesAmong_text]
      exact List.filter_congr fun q hq => (isFile_insert_file hr
        (route_ne_of_isSource hx (isSource_of_mem_sourcesAmong hq))).symm
    rw [hfound] at hne ⊢
    exact .directory hn' hne

end

theorem HasSources.isSource {p q : Path} {files : List Path} (h : t.HasSources p files)
    (hq : q ∈ files) : q.isSource = true := by
  cases h with
  | file _ hs => rwa [List.mem_singleton.1 hq]
  | directory _ _ => exact isSource_of_mem_sourcesAmong (List.mem_of_mem_filter hq)

end

end FileTree

/-- A run that is not told where to write reads the same things behind its write. -/
theorem Prepared.insert_file {t : FileTree} {i : Invocation} {own o : Options}
    {files : List Path} {us : List SourceUnit} {p : Program} {path : Path} {r : Route}
    {content : ByteArray} (h : Prepared t i own o files us p path) (hi : i.output = none)
    (hc : ∀ c, i.config = some c → t.route c ≠ .ok r) (hr : t.get? r ≠ some .directory)
    (hx : Route.extension? r ≠ some sourceExtension) :
    Prepared (t.insert r (.file content)) i own o files us p path where
  options := h.options.insert_file hr hc
  inForce := h.inForce
  sources := h.sources.insert_file hx hr
  units := by
    have hs : List.Forall₂ (fun f u => f.isSource = true ∧ t.HasUnit f u) files us :=
      (List.forall₂_and_left _ _).2 ⟨fun _ => h.sources.isSource, h.units⟩
    exact hs.imp fun f u hu =>
      ⟨(hasText_insert_file_iff hr (route_ne_of_isSource hx hu.1)).2 hu.2.1, hu.2.2⟩
  program := h.program
  output := by
    have hd := h.output
    rw [OutputAt, hi] at hd ⊢
    exact hd.insert_file hr

/-- No configuration file is where the output goes by default. -/
def FileTree.ConfigApart (t : FileTree) (i : Invocation) : Prop :=
  ∀ c path r, i.config = some c → t.DefaultOutput i.source path → t.route path = .ok r →
    t.route c ≠ .ok r

/-- A run that is not told where to write writes a file with the extension of outputs, over none
of its sources and no other file with the extension of sources. A second run on the tree behind
it reads the same things, and leaves that tree as it is. -/
theorem rerun_of_default_output {t t' : FileTree} {i : Invocation} (hi : i.output = none)
    (hc : t.ConfigApart i) (h : t.perform (run i) = (.ok (), t')) :
    ∃ own o files us p path r, Prepared t i own o files us p path ∧
      t.OnlyWritten t' path r p.text.toUTF8 ∧
      path.extension? = some outputExtension ∧ Route.extension? r = some outputExtension ∧
      (path ∉ files ∧ ∀ q ∈ files, t.route q ≠ .ok r) ∧
      (∀ s, Route.extension? s = some sourceExtension → t'.get? s = t.get? s) ∧
      Prepared t' i own o files us p path ∧ t'.perform (run i) = (.ok (), t') := by
  obtain ⟨own, o, files, us, p, path, r, hp, hr, rfl⟩ := perform_run_eq_ok_iff.1 h
  have hdefault : t.DefaultOutput i.source path := by
    have hd := hp.output
    rwa [OutputAt, hi] at hd
  have hroute := route_of_target hr
  have hpath := hdefault.extension? hr
  have hext := extension?_of_route hroute hpath
  have hx : Route.extension? r ≠ some sourceExtension := by
    rw [hext]
    decide
  have hdir : t.get? r ≠ some .directory := (target_eq_ok_iff.1 hr).2.2.1
  have hp' : Prepared (t.insert r (.file p.text.toUTF8)) i own o files us p path :=
    hp.insert_file hi (fun c hic => hc c path r hic hdefault hroute) hdir hx
  refine ⟨own, o, files, us, p, path, r, hp, onlyWritten_insert hr, hpath, hext, ⟨fun hm => ?_, ?_⟩,
    fun s hs => get?_insert_of_ne t ?_ _, hp', ?_⟩
  · have := eq_of_beq (hp.sources.isSource hm)
    rw [hpath] at this
    exact absurd this (by decide)
  · exact fun q hq => route_ne_of_isSource hx (hp.sources.isSource hq)
  · rintro rfl
    exact hx hs
  · exact perform_run_eq_ok_iff.2 ⟨own, o, files, us, p, path, r, hp',
      (target_insert_file_iff hdir).2 hr, (insert_insert t r _ _).symm⟩

/-! ## The directory as its own source -/

def workInvocation : Invocation := ⟨⟨"."⟩, none, some ⟨"vmt.json"⟩, true, none, 0⟩

theorem hasSources_workTree : workTree.HasSources ⟨"."⟩ [⟨"./Main.vm"⟩] := by
  have hn : workTree.names ⟨"."⟩ = .ok [mainName, configName] := rfl
  have hfound : (sourcesAmong ⟨"."⟩ ([mainName, configName].map FileName.text)).filter
      workTree.isFile = [⟨"./Main.vm"⟩] := by
    have hnames : [mainName, configName].filter FileName.isSource = [mainName] := by decide
    rw [sourcesAmong_text, hnames, inOrder, List.map_singleton, List.mergeSort_singleton]
    rfl
  rw [← hfound]
  exact .directory hn (by rw [hfound]; simp)

theorem defaultOutput_workTree {path : Path} :
    workTree.DefaultOutput ⟨"."⟩ path ↔ path = ⟨"./work.asm"⟩ := by
  have hf : workTree.find ⟨"."⟩ = .ok ([workName], .directory) := rfl
  constructor
  · intro h
    cases h with
    | file hd =>
      rw [isDirectory_iff.2 ⟨_, hf⟩] at hd
      cases hd
    | directory hd hl =>
      cases hf.symm.trans hd
      cases hl
      rfl
  · rintro rfl
    exact .directory hf rfl

theorem configApart_workTree : workTree.ConfigApart workInvocation := by
  rintro c path r hc hpath hr hcr
  cases hc
  cases defaultOutput_workTree.1 hpath
  have ho : workTree.route ⟨"./work.asm"⟩ = .ok [workName, ⟨"work.asm", by decide⟩] := rfl
  have hv : workTree.route ⟨"vmt.json"⟩ = .ok [workName, configName] := rfl
  have hout := Except.ok.inj (hr.symm.trans ho)
  have hconfig := Except.ok.inj (hcr.symm.trans hv)
  rw [hout] at hconfig
  exact absurd hconfig (by decide)

theorem prepared_workTree : ∃ p, Prepared workTree workInvocation ⟨true, .never⟩ ⟨false, .never⟩
    [⟨"./Main.vm"⟩] [workUnit] p ⟨"./work.asm"⟩ := by
  obtain ⟨p, hp⟩ : ∃ p, translate ⟨false, .never⟩ [workUnit] = .ok p := ⟨_, rfl⟩
  refine ⟨p, hasOptions_workTree, Invocation.inForce_iff.2 rfl, hasSources_workTree, ?_, hp,
    defaultOutput_workTree.2 rfl⟩
  exact .cons ⟨hasText_of_read rfl, by decide⟩ .nil

theorem rerun_of_workTree :
    ∃ t', workTree.perform (run workInvocation) = (.ok (), t') ∧
      t'.perform (run workInvocation) = (.ok (), t') := by
  obtain ⟨p, hp⟩ := prepared_workTree
  have ht : workTree.target ⟨"./work.asm"⟩ = .ok [workName, ⟨"work.asm", by decide⟩] := rfl
  have hrun := perform_run_eq_ok_iff.2 ⟨_, _, _, _, p, _, _, hp, ht, rfl⟩
  obtain ⟨_, _, _, _, _, _, _, _, _, _, _, _, _, _, hagain⟩ :=
    rerun_of_default_output rfl configApart_workTree hrun
  exact ⟨_, hrun, hagain⟩

end HackVM
