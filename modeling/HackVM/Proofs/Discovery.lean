import HackVM.Proofs.ByteOrder
import HackVM.Proofs.Rerun
import HackVM.Proofs.Verdict

/-!
# The sources of a directory

The sources that are found in a directory are told without the listing: they are the files in it
whose names end in `.vm`, as far as the paths to them can be followed. Each is found once, in the
order of the bytes of their names, whatever order the directory is listed in. A name of a source is
that of its unit with `.vm` behind it, so that the units of a directory have distinct names.

A path is followed if it is shorter than 4096 bytes. A directory may be named by a path that is
just short enough, and then the longer paths to its files lead nowhere, and nothing is found.
-/

namespace HackVM

open Text FileTree

/-! ## Names of sources -/

namespace FileName

theorem text_injective : Function.Injective text := by
  intro a b h
  cases a
  cases b
  simpa using h

/-- A name with its extension: the stem is what is left. -/
theorem splitName_eq {n : FileName} {stem : String} (hs : stem ≠ "") (h : n.text = stem ++ ".vm") :
    Path.splitName n.text.toList = (stem.toList, some ['v', 'm']) := by
  have htext : n.text.toList = stem.toList ++ '.' :: ['v', 'm'] := by simp [h]
  rw [htext]
  exact Path.splitName_append (fun h0 => hs (String.toList_eq_nil_iff.1 h0)) (by decide)

/-- The names of sources end in `.vm`, and something stands in front of it. -/
theorem isSource_iff {n : FileName} :
    n.isSource = true ↔ ∃ stem, stem ≠ "" ∧ n.text = stem ++ ".vm" := by
  constructor
  · intro h
    rw [isSource, beq_iff_eq, extension?, Path.splitName] at h
    split at h
    · rename_i ext stem hc
      split at h
      · cases h
      · rename_i hs
        -- the name is cut at its last dot, read from its end
        have hrev := congrArg List.reverse (eq_append_of_cut? hc)
        have hext : ext.reverse = ['v', 'm'] := by
          rw [Option.map_some, Option.some.injEq] at h
          simpa [sourceExtension] using congrArg String.toList h
        rw [List.reverse_reverse, List.reverse_append, List.reverse_cons, hext] at hrev
        refine ⟨String.ofList stem.reverse, ?_, String.toList_inj.1 ?_⟩
        · rw [Ne, ← String.toList_eq_nil_iff, String.toList_ofList]
          simpa using hs
        · rw [hrev]
          simp
    · cases h
  · rintro ⟨stem, hs, h⟩
    rw [isSource, extension?, splitName_eq hs h]
    rfl

/-- The unit in a source is named by what stands in front of `.vm`. -/
theorem stem?_join {n : FileName} {stem : String} (hs : stem ≠ "") (h : n.text = stem ++ ".vm")
    (p : Path) : (p.join n.text).stem? = some stem := by
  obtain ⟨before, -, hp⟩ := Path.exists_pieces_join p n.isFileName.2.2.2
  rw [Path.stem?, Path.lastPiece?_of_pieces hp n.isIdle_eq_false n.isParent_eq_false,
    Option.map_some, splitName_eq hs h, String.ofList_toList]

/-- The names in the order of their texts. -/
def inOrder (names : List FileName) : List FileName :=
  names.mergeSort fun a b => precedes a.text.toList b.text.toList

theorem map_text_inOrder (names : List FileName) :
    (inOrder names).map text = HackVM.inOrder (names.map text) :=
  List.map_mergeSort fun _ _ _ _ => rfl

/-- The order does not depend on how the names are listed. -/
theorem inOrder_eq_of_perm {xs ys : List FileName} (h : xs.Perm ys) : inOrder xs = inOrder ys := by
  apply List.map_injective_iff.2 text_injective
  rw [map_text_inOrder, map_text_inOrder, HackVM.inOrder_eq_of_perm (h.map text)]

/-- Distinct names in order ascend by their bytes. -/
theorem pairwise_bytes_inOrder {names : List FileName} (h : names.Nodup) :
    (inOrder names).Pairwise fun a b => bytes a.text < bytes b.text := by
  have hle : (inOrder names).Pairwise fun a b => precedes a.text.toList b.text.toList = true := by
    have hp := pairwise_inOrder (names.map text)
    rw [← map_text_inOrder] at hp
    exact List.pairwise_map.1 hp
  have hne : (inOrder names).Nodup := (List.mergeSort_perm names _).nodup_iff.2 h
  exact hle.imp₂ (fun a b hab hn => bytes_lt hab fun ht => hn (text_injective ht)) hne

end FileName

/-! ## Paths to the entries of a directory -/

theorem Path.check_eq_ok_iff {p : Path} :
    p.check = .ok () ↔ '\x00' ∉ p.text.toList ∧ p.text ≠ "" ∧ p.text.utf8ByteSize < 4096 := by
  rw [check]
  simp only [List.contains_iff_mem]
  split_ifs with h0 h1 h2
  · simp [h0]
  · simp [h1]
  · simp [h2]
  · simp [h0, h1, Nat.not_le.1 h2]

theorem Path.exists_text_join (p : Path) (name : String) :
    ∃ sep, (sep = "" ∨ sep = "/") ∧ (p.join name).text = p.text ++ sep ++ name := by
  refine ⟨_, ?_, rfl⟩
  split_ifs
  · exact .inl rfl
  · exact .inr rfl

theorem Path.isAbsolute_join {p : Path} (h : p.text ≠ "") (name : String) :
    (p.join name).isAbsolute = p.isAbsolute := by
  obtain ⟨sep, -, htext⟩ := exists_text_join p name
  rw [isAbsolute, isAbsolute, htext, String.append_assoc, String.toList_append,
    List.head?_append_of_ne_nil _ fun h0 => h (String.toList_eq_nil_iff.1 h0)]

/-- The name and the joined path have a length that can be followed. -/
structure Path.FollowedTo (p : Path) (n : FileName) : Prop where
  nameSize : n.text.utf8ByteSize ≤ 255
  zero_notMem : '\x00' ∉ n.text.toList
  pathSize : (p.join n.text).text.utf8ByteSize < 4096

namespace FileTree

variable {t : FileTree} {p : Path} {r : Route} {n : FileName}

theorem get?_eq_some_iff {s : Route} (hs : s ≠ []) {e : Entry} :
    t.get? s = some e ↔ (s, e) ∈ t.entries := by
  rw [get?, if_neg hs, List.lookup_eq_some_iff]
  constructor
  · rintro ⟨front, back, h, -⟩
    rw [h]
    simp
  · intro h
    obtain ⟨front, back, hf⟩ := List.append_of_mem h
    refine ⟨front, back, hf, fun x hx => bne_iff_ne.2 ?_⟩
    rintro rfl
    have hd := t.distinct
    rw [hf, List.map_append, List.map_cons, List.nodup_middle, List.nodup_cons] at hd
    exact hd.1 (List.mem_append_left _ (List.mem_map.2 ⟨x, hx, rfl⟩))

theorem mem_filterMap_nameIn? :
    n ∈ t.entries.filterMap (nameIn? r) ↔ ∃ e, t.get? (r ++ [n]) = some e := by
  simp only [get?_eq_some_iff (List.concat_ne_nil n r), List.mem_filterMap, nameIn?]
  constructor
  · rintro ⟨⟨s, e⟩, hm, hs⟩
    split at hs
    · rename_i hd
      obtain ⟨d, rfl⟩ := List.getLast?_eq_some_iff.1 hs
      rw [List.dropLast_concat] at hd
      exact ⟨e, hd ▸ hm⟩
    · cases hs
  · rintro ⟨e, hm⟩
    exact ⟨_, hm, by simp⟩

/-- No name is listed twice. -/
theorem nodup_filterMap_nameIn? (t : FileTree) (r : Route) :
    (t.entries.filterMap (nameIn? r)).Nodup := by
  have hkeys : t.entries.filterMap (nameIn? r) = (t.entries.map Prod.fst).filterMap fun s =>
      if s.dropLast = r then s.getLast? else none := by
    rw [List.filterMap_map]
    rfl
  rw [hkeys]
  refine t.distinct.filterMap fun s s' n hs hs' => ?_
  rw [Option.mem_def] at hs hs'
  split at hs
  · split at hs'
    · rename_i hd hd'
      rw [← List.dropLast_append_getLast? n hs, ← List.dropLast_append_getLast? n hs', hd, hd']
    · cases hs'
  · cases hs

theorem follow_append_of_ok {q s : Route} {ms : List Move} (hq : t.follow r ms = .ok q)
    (ns : List Move) : t.follow r (ms ++ ns) = .ok s ↔ t.follow q ns = .ok s := by
  rw [follow_append_eq_ok_iff]
  constructor
  · rintro ⟨q', hq', hs⟩
    cases hq.symm.trans hq'
    exact hs
  · intro hs
    exact ⟨q, hq, hs⟩

theorem follow_into_iff (hr : t.get? r = some .directory) {s : Route} :
    t.follow r [.into n] = .ok s ↔ n.text.utf8ByteSize ≤ 255 ∧ s = r ++ [n] := by
  rw [follow_cons_eq_ok_iff]
  simp [hr, follow, eq_comm]

section

variable (h : t.find p = .ok (r, .directory))

include h

theorem follow_join_iff {s : Route} :
    t.follow (t.start p) (p.join n.text).moves = .ok s ↔
      n.text.utf8ByteSize ≤ 255 ∧ s = r ++ [n] := by
  obtain ⟨hroute, hdir⟩ := find_eq_ok_iff.1 h
  have hfollow := (route_eq_ok_iff.1 hroute).2
  have hinto : Move.ofPiece n.text.toList = .into n := Move.ofPiece_eq_into_iff.2 rfl
  have hstays : ∀ m ∈ [[]].map Move.ofPiece, m = .stay := by decide
  obtain ⟨before, hbefore, hp⟩ := Path.exists_pieces_join p n.isFileName.2.2.2
  rw [Path.moves, hp, List.map_append, List.map_singleton, hinto]
  rcases hbefore with hb | hb
  · rw [Path.moves, hb] at hfollow
    rw [follow_append_of_ok hfollow, follow_into_iff hdir]
  · rw [Path.moves, hb, List.map_append] at hfollow
    obtain ⟨q, hq, hstay⟩ := follow_append_eq_ok_iff.1 hfollow
    -- the empty piece behind the slash leads nowhere
    obtain rfl := eq_of_follow_stays hstays hstay
    rw [follow_append_of_ok hq, follow_into_iff hdir]

/-- A path that is joined from a directory and a name leads to the entry of this name. -/
theorem route_join_iff {s : Route} :
    t.route (p.join n.text) = .ok s ↔ p.FollowedTo n ∧ s = r ++ [n] := by
  obtain ⟨hzero, hne, -⟩ := Path.check_eq_ok_iff.1 (route_eq_ok_iff.1 (find_eq_ok_iff.1 h).1).1
  obtain ⟨sep, hsep, htext⟩ := Path.exists_text_join p n.text
  have hzero' : '\x00' ∉ (p.join n.text).text.toList ↔ '\x00' ∉ n.text.toList := by
    rcases hsep with rfl | rfl
    · simp [htext, hzero]
    · simp [htext, hzero]
  have hne' : (p.join n.text).text ≠ "" := by
    rw [htext, Ne, String.append_eq_empty_iff]
    exact fun h0 => n.isFileName.1 h0.2
  rw [route_eq_ok_iff, Path.check_eq_ok_iff, hzero', start, Path.isAbsolute_join hne, ← start,
    follow_join_iff h]
  constructor
  · rintro ⟨⟨hz, -, hlt⟩, hn, hs⟩
    exact ⟨⟨hn, hz, hlt⟩, hs⟩
  · rintro ⟨hf, hs⟩
    exact ⟨⟨hf.zero_notMem, hne', hf.pathSize⟩, hf.nameSize, hs⟩

theorem isFile_join_iff :
    t.isFile (p.join n.text) = true ↔
      p.FollowedTo n ∧ ∃ content, t.get? (r ++ [n]) = some (.file content) := by
  rw [isFile_iff]
  simp only [find_eq_ok_iff, route_join_iff h]
  constructor
  · rintro ⟨s, content, ⟨hf, rfl⟩, hg⟩
    exact ⟨hf, content, hg⟩
  · rintro ⟨hf, content, hg⟩
    exact ⟨_, content, ⟨hf, rfl⟩, hg⟩

end

/-! ## What is found -/

/-- A file in the directory, named like a source, to which the path of the directory leads. -/
structure SourceIn (t : FileTree) (p : Path) (r : Route) (n : FileName) : Prop where
  isFile : ∃ content, t.get? (r ++ [n]) = some (.file content)
  hasExtension : ∃ stem, stem ≠ "" ∧ n.text = stem ++ ".vm"
  followed : p.FollowedTo n

/-- The names of the sources in a directory, in order. -/
def sourceNames (t : FileTree) (p : Path) (r : Route) : List FileName :=
  (FileName.inOrder ((t.entries.filterMap (nameIn? r)).filter FileName.isSource)).filter fun n =>
    t.isFile (p.join n.text)

theorem map_join_sourceNames (t : FileTree) (p : Path) (r : Route) :
    (sourcesAmong p ((t.entries.filterMap (nameIn? r)).map FileName.text)).filter t.isFile =
      (t.sourceNames p r).map fun n => p.join n.text := by
  rw [sourcesAmong_text, ← FileName.map_text_inOrder, List.map_map, List.filter_map]
  rfl

theorem pairwise_sourceNames (t : FileTree) (p : Path) (r : Route) :
    (t.sourceNames p r).Pairwise fun a b => bytes a.text < bytes b.text :=
  (FileName.pairwise_bytes_inOrder ((nodup_filterMap_nameIn? t r).filter _)).filter _

theorem mem_sourceNames_iff (h : t.find p = .ok (r, .directory)) :
    n ∈ t.sourceNames p r ↔ t.SourceIn p r n := by
  rw [sourceNames, List.mem_filter, FileName.inOrder, List.mem_mergeSort, List.mem_filter,
    mem_filterMap_nameIn?, FileName.isSource_iff, isFile_join_iff h]
  constructor
  · rintro ⟨⟨-, hs⟩, hf, hc⟩
    exact ⟨hc, hs, hf⟩
  · rintro ⟨⟨content, hc⟩, hs, hf⟩
    exact ⟨⟨⟨_, hc⟩, hs⟩, hf, content, hc⟩

/-- In a directory the sources are found, or that there are none. -/
theorem answer_discover_eq (h : t.find p = .ok (r, .directory)) :
    t.answer (discover p) =
      if t.sourceNames p r = [] then .error (.noSources p)
      else .ok ((t.sourceNames p r).map fun n => p.join n.text) := by
  rw [answer_discover_directory h, map_join_sourceNames]
  simp only [List.isEmpty_iff, List.map_eq_nil_iff]

/-! ## Listing in another order -/

/-- The same tree with its entries listed in another order. -/
structure Relisted (t t' : FileTree) : Prop where
  workingDirectory : t'.workingDirectory = t.workingDirectory
  entries : t.entries.Perm t'.entries

namespace Relisted

variable {t' : FileTree} (hl : t.Relisted t')

include hl

theorem get?_eq (s : Route) : t'.get? s = t.get? s := by
  by_cases hs : s = []
  · rw [hs]
    rfl
  · apply Option.ext
    intro e
    rw [get?_eq_some_iff hs, get?_eq_some_iff hs, hl.entries.mem_iff]

theorem find_eq_ok_iff {e : Entry} : t'.find p = .ok (r, e) ↔ t.find p = .ok (r, e) := by
  have hdir : ∀ q, t'.get? q = some .directory ↔ t.get? q = some .directory := fun q => by
    rw [hl.get?_eq]
  rw [FileTree.find_eq_ok_iff, FileTree.find_eq_ok_iff, route_eq_ok_iff, route_eq_ok_iff,
    start, hl.workingDirectory, ← start, follow_congr hdir, hl.get?_eq]

theorem isFile_eq (p : Path) : t'.isFile p = t.isFile p := by
  rw [Bool.eq_iff_iff, isFile_iff, isFile_iff]
  simp only [hl.find_eq_ok_iff]

theorem sourceNames_eq (p : Path) (r : Route) : t'.sourceNames p r = t.sourceNames p r := by
  have hnames := (hl.entries.filterMap (nameIn? r)).filter FileName.isSource
  rw [sourceNames, sourceNames, FileName.inOrder_eq_of_perm hnames]
  exact List.filter_congr fun n _ => hl.isFile_eq _

end Relisted

end FileTree

/-! ## Units of a directory -/

theorem translate_ne_duplicateUnit {us : List SourceUnit} (h : (us.map (·.name)).Nodup)
    (o : Options) (name : String) : translate o us ≠ .error (.duplicateUnit name) := by
  intro he
  obtain ⟨result, hv⟩ := exists_verdict o us
  rw [translate_of_verdict hv] at he
  rw [he] at hv
  cases hv with
  | duplicateUnit hn hm _ =>
    rw [hn, List.nodup_middle, List.nodup_cons] at h
    exact h.1 (List.mem_append_left _ hm)

theorem FileTree.HasUnit.text_eq {t : FileTree} {p : Path} {n : FileName} {u : SourceUnit}
    (hn : ∃ stem, stem ≠ "" ∧ n.text = stem ++ ".vm") (h : t.HasUnit (p.join n.text) u) :
    n.text = u.name ++ ".vm" := by
  obtain ⟨stem, hs, htext⟩ := hn
  have hu := h.2
  rw [FileName.stem?_join hs htext] at hu
  rw [htext, Option.some.inj hu]

theorem ne_of_bytes_lt {a b : FileName} (h : bytes a.text < bytes b.text) : a ≠ b := by
  rintro rfl
  exact List.lt_irrefl _ h

/-- Names that ascend are told by which they are. -/
theorem eq_of_ascending {xs ys : List FileName}
    (hx : xs.Pairwise fun a b => bytes a.text < bytes b.text)
    (hy : ys.Pairwise fun a b => bytes a.text < bytes b.text) (h : ∀ n, n ∈ xs ↔ n ∈ ys) :
    xs = ys := by
  have hp := (List.perm_ext_iff_of_nodup (hx.imp ne_of_bytes_lt) (hy.imp ne_of_bytes_lt)).2 h
  exact hp.eq_of_pairwise (fun a b _ _ hab hba => absurd hba (List.lt_asymm hab)) hx hy

/-- Units with the names of distinct files have distinct names. -/
theorem nodup_names_of_forall₂ {names : List FileName} {us : List SourceUnit}
    (h : List.Forall₂ (fun n u => n.text = u.name ++ ".vm") names us) (hd : names.Nodup) :
    (us.map (·.name)).Nodup := by
  have htexts : names.map FileName.text = (us.map (·.name)).map (· ++ ".vm") := by
    induction h with
    | nil => rfl
    | cons hu _ ih => simp [hu, ih (List.nodup_cons.1 hd).2]
  have hnodup := hd.map FileName.text_injective
  rw [htexts] at hnodup
  exact hnodup.of_map _

/-- What is found in a directory is the sources in it, each once, by the bytes of their names. It is
an error if there are none. The order of the listing does not matter; and the units that are read
from what is found have the names of the files without `.vm`, so that no name is given twice. -/
theorem discover_of_directory {t : FileTree} {p : Path} {r : Route}
    (h : t.find p = .ok (r, .directory)) :
    ∃ names : List FileName, (∀ n, n ∈ names ↔ t.SourceIn p r n) ∧
      names.Pairwise (fun a b => bytes a.text < bytes b.text) ∧
      t.answer (discover p) =
        (if names = [] then .error (.noSources p) else .ok (names.map fun n => p.join n.text)) ∧
      (∀ t', t.Relisted t' → t'.answer (discover p) = t.answer (discover p)) ∧
      ∀ us, t.answer (readUnits (names.map fun n => p.join n.text)) = .ok us →
        List.Forall₂ (fun n u => n.text = u.name ++ ".vm") names us ∧
          (us.map (·.name)).Nodup ∧
          ∀ o name, translate o us ≠ .error (.duplicateUnit name) := by
  have hsorted := pairwise_sourceNames t p r
  refine ⟨t.sourceNames p r, fun n => mem_sourceNames_iff h, hsorted, answer_discover_eq h,
    fun t' hl => ?_, fun us hus => ?_⟩
  · rw [answer_discover_eq (hl.find_eq_ok_iff.2 h), answer_discover_eq h, hl.sourceNames_eq]
  · have hunits : List.Forall₂ (fun n u => n.text = u.name ++ ".vm") (t.sourceNames p r) us := by
      have hread := List.forall₂_map_left_iff.1 (answer_readUnits.1 hus)
      have hsource : ∀ n ∈ t.sourceNames p r, t.SourceIn p r n := fun n =>
        (mem_sourceNames_iff h).1
      exact ((List.forall₂_and_left _ _).2 ⟨hsource, hread⟩).imp fun n u hu =>
        hu.2.text_eq hu.1.hasExtension
    have hnames := nodup_names_of_forall₂ hunits
      (hsorted.imp ne_of_bytes_lt)
    exact ⟨hunits, hnames, translate_ne_duplicateUnit hnames⟩

/-! ## A directory with other entries -/

namespace FileTree

/-- The tree with its entries listed from the last one. -/
def backwards (t : FileTree) : FileTree where
  workingDirectory := t.workingDirectory
  entries := t.entries.reverse
  distinct := by
    rw [List.map_reverse, List.nodup_reverse]
    exact t.distinct

theorem relisted_backwards (t : FileTree) : t.Relisted t.backwards :=
  ⟨rfl, t.entries.reverse_perm.symm⟩

end FileTree

def dottedName : FileName := ⟨"A.b.vm", by decide⟩

def plainName : FileName := ⟨"b.vm", by decide⟩

/-- Two sources between a directory and files that are named almost like them. -/
def mixedTree : FileTree where
  workingDirectory := [workName]
  entries := [([workName], .directory), ([workName, plainName], .file mainText.toUTF8),
    ([workName, ⟨"nested.vm", by decide⟩], .directory),
    ([workName, ⟨"C.VM", by decide⟩], .file mainText.toUTF8),
    ([workName, ⟨".vm", by decide⟩], .file mainText.toUTF8),
    ([workName, dottedName], .file "add".toUTF8)]
  distinct := by decide

theorem sourceIn_mixedTree {n : FileName} :
    mixedTree.SourceIn ⟨"."⟩ [workName] n ↔ n ∈ [dottedName, plainName] := by
  constructor
  · rintro ⟨⟨content, hc⟩, hs, -⟩
    rw [get?_eq_some_iff (by simp)] at hc
    have hs := FileName.isSource_iff.2 hs
    simp only [mixedTree, List.cons_append, List.nil_append, List.mem_cons, Prod.mk.injEq,
      List.cons.injEq, true_and, and_true, List.not_mem_nil, or_false, reduceCtorEq, and_false,
      false_or] at hc
    rcases hc with ⟨rfl, -⟩ | ⟨rfl, -⟩ | ⟨rfl, -⟩ | ⟨rfl, -⟩
    · simp
    · cases hs
    · cases hs
    · simp
  · intro hn
    rcases List.mem_pair.1 hn with rfl | rfl
    · exact ⟨⟨_, rfl⟩, ⟨"A.b", by decide, by decide⟩, by decide, by decide, by decide⟩
    · exact ⟨⟨_, rfl⟩, ⟨"b", by decide, by decide⟩, by decide, by decide, by decide⟩

theorem discover_of_mixedTree :
    mixedTree.find ⟨"."⟩ = .ok ([workName], .directory) ∧
      mixedTree.answer (discover ⟨"."⟩) = .ok [⟨"./A.b.vm"⟩, ⟨"./b.vm"⟩] ∧
      mixedTree.backwards.answer (discover ⟨"."⟩) = .ok [⟨"./A.b.vm"⟩, ⟨"./b.vm"⟩] ∧
      ∃ us, mixedTree.answer (readUnits [⟨"./A.b.vm"⟩, ⟨"./b.vm"⟩]) = .ok us ∧
        us.map (·.name) = ["A.b", "b"] ∧
        ∀ name, translate .default us ≠ .error (.duplicateUnit name) := by
  have hf : mixedTree.find ⟨"."⟩ = .ok ([workName], .directory) := rfl
  obtain ⟨names, hmem, hsorted, hanswer, hlisted, hunits⟩ := discover_of_directory hf
  obtain rfl : names = [dottedName, plainName] := by
    refine eq_of_ascending hsorted ?_ fun n => by rw [hmem, sourceIn_mixedTree]
    exact List.pairwise_pair.2 (bytes_lt (by decide) (by decide))
  have hread : mixedTree.answer (readUnits [⟨"./A.b.vm"⟩, ⟨"./b.vm"⟩]) =
      .ok [⟨"A.b", "add"⟩, ⟨"b", mainText⟩] :=
    answer_readUnits.2 (.cons ⟨hasText_of_read rfl, by decide⟩
      (.cons ⟨hasText_of_read rfl, by decide⟩ .nil))
  refine ⟨hf, hanswer, ?_, _, hread, rfl, (hunits _ hread).2.2 .default⟩
  rw [hlisted _ (relisted_backwards _), hanswer]
  rfl

/-! ## Long paths -/

/-- A source has a name of four bytes at least, and so no path to it can be followed from a
directory whose own path has no room for them. -/
theorem discover_of_long_path {t : FileTree} {p : Path} {r : Route}
    (h : t.find p = .ok (r, .directory)) (hlong : 4092 ≤ p.text.utf8ByteSize) :
    t.answer (discover p) = .error (.noSources p) := by
  have hnone : t.sourceNames p r = [] := by
    rw [List.eq_nil_iff_forall_not_mem]
    intro n hn
    obtain ⟨-, ⟨stem, hs, hname⟩, hf⟩ := (mem_sourceNames_iff h).1 hn
    obtain ⟨sep, -, htext⟩ := Path.exists_text_join p n.text
    have hsize := hf.pathSize
    have hstem : stem.utf8ByteSize ≠ 0 := fun h0 => hs (String.utf8ByteSize_eq_zero_iff.1 h0)
    have hext : ".vm".utf8ByteSize = 3 := by decide
    rw [htext, hname] at hsize
    simp only [String.utf8ByteSize_append, hext] at hsize
    omega
  rw [answer_discover_eq h, if_pos hnone]

/-- A path of `2 * k` bytes that leads nowhere. -/
def idlePath : ℕ → String
  | 0 => ""
  | k + 1 => "./" ++ idlePath k

theorem utf8ByteSize_idlePath (k : ℕ) : (idlePath k).utf8ByteSize = 2 * k := by
  induction k with
  | zero => rfl
  | succ k ih =>
    have hstep : "./".utf8ByteSize = 2 := by decide
    rw [idlePath, String.utf8ByteSize_append, ih, hstep]
    omega

theorem toList_idlePath_succ (k : ℕ) :
    (idlePath (k + 1)).toList = '.' :: '/' :: (idlePath k).toList := by
  rw [idlePath, String.toList_append]
  rfl

theorem moves_idlePath (k : ℕ) : ∀ m ∈ (Path.mk (idlePath k)).moves, m = .stay := by
  induction k with
  | zero => decide
  | succ k ih =>
    have hpieces : (Path.mk (idlePath (k + 1))).pieces =
        ['.'] :: (Path.mk (idlePath k)).pieces := by
      rw [Path.pieces, toList_idlePath_succ]
      exact split_append_sep (s := ['.']) (by simp) (by decide) _
    intro m hm
    rw [Path.moves, hpieces, List.map_cons, List.mem_cons] at hm
    rcases hm with rfl | hm
    · rfl
    · exact ih m hm

theorem zero_notMem_idlePath (k : ℕ) : '\x00' ∉ (idlePath k).toList := by
  induction k with
  | zero => decide
  | succ k ih => simp [toList_idlePath_succ, ih]

theorem FileTree.follow_of_stays {t : FileTree} {r : Route} (hr : t.get? r = some .directory)
    {ms : List Move} (hms : ∀ m ∈ ms, m = .stay) : t.follow r ms = .ok r := by
  induction ms with
  | nil => rfl
  | cons m ms ih =>
    rw [hms m (by simp)]
    exact follow_cons_eq_ok_iff.2 ⟨hr, ih fun m hm => hms m (by simp [hm])⟩

/-- It leads to the working directory, as long as it can be followed. -/
theorem FileTree.find_idlePath {t : FileTree} {k : ℕ} (hk : 0 < k) (hlt : 2 * k < 4096)
    (hd : t.get? t.workingDirectory = some .directory) :
    t.find ⟨idlePath k⟩ = .ok (t.workingDirectory, .directory) := by
  obtain ⟨j, rfl⟩ := Nat.exists_eq_succ_of_ne_zero (Nat.ne_of_gt hk)
  have hcheck : (Path.mk (idlePath (j + 1))).check = .ok () := by
    refine Path.check_eq_ok_iff.2 ⟨zero_notMem_idlePath _, fun h0 => ?_, ?_⟩
    · have htext := toList_idlePath_succ j
      rw [show idlePath (j + 1) = "" from h0] at htext
      cases htext
    · rwa [utf8ByteSize_idlePath]
  have hstart : t.start ⟨idlePath (j + 1)⟩ = t.workingDirectory := by
    rw [start, Path.isAbsolute, toList_idlePath_succ]
    rfl
  refine find_eq_ok_iff.2 ⟨route_eq_ok_iff.2 ⟨hcheck, ?_⟩, hd⟩
  rw [hstart]
  exact follow_of_stays hd (moves_idlePath _)

/-- The source in the working directory is not found by a path that long. -/
theorem noSources_of_workTree :
    workTree.find ⟨idlePath 2046⟩ = .ok ([workName], .directory) ∧
      workTree.get? [workName, mainName] = some (.file mainText.toUTF8) ∧
      mainName.text = "Main" ++ ".vm" ∧
      workTree.answer (discover ⟨idlePath 2046⟩) = .error (.noSources ⟨idlePath 2046⟩) := by
  have hf : workTree.find ⟨idlePath 2046⟩ = .ok ([workName], .directory) :=
    find_idlePath (by decide) (by decide) rfl
  have hsize : 4092 = (idlePath 2046).utf8ByteSize := (utf8ByteSize_idlePath 2046).symm
  exact ⟨hf, rfl, by decide, discover_of_long_path hf (Nat.le_of_eq hsize)⟩

end HackVM
