import HackVM.Proofs.Grammar
import HackVM.Proofs.Paths

/-!
# Where paths lead

A path leads to a route through directories only. So a file that is put where no directory
stands changes nothing about where paths lead, and nothing about what they find unless they lead
to that file. The name at the end of the route is the one at the end of the path.
-/

namespace HackVM

/-! ## Moves -/

namespace Move

theorem ofPiece_of_isIdle {piece : List Char} (h : Path.isIdle piece = true) :
    ofPiece piece = .stay := by
  rw [Path.isIdle, Bool.or_eq_true, beq_iff_eq, beq_iff_eq] at h
  rcases h with rfl | rfl
  · rfl
  · rfl

/-- A piece that leads into a directory is the name of what it leads to. -/
theorem ofPiece_eq_into_iff {piece : List Char} {name : FileName} :
    ofPiece piece = .into name ↔ name.text.toList = piece := by
  constructor
  · intro h
    rw [ofPiece] at h
    split at h
    · cases h
    · split at h
      · rename_i n hn
        cases h
        rw [FileName.ofText?] at hn
        split at hn
        · cases hn
          exact String.toList_ofList
        · cases hn
      · cases h
  · rintro rfl
    rw [ofPiece, if_neg (by simp [name.isParent_eq_false]), String.ofList_toList,
      FileName.ofText?, dif_pos name.isFileName]

theorem exists_ofPiece_eq_into {piece : List Char} (hi : Path.isIdle piece = false)
    (hp : Path.isParent piece = false) (hs : '/' ∉ piece) :
    ∃ name : FileName, ofPiece piece = .into name ∧ name.text.toList = piece := by
  rw [Path.isIdle, Bool.or_eq_false_iff, beq_eq_false_iff_ne, beq_eq_false_iff_ne] at hi
  rw [Path.isParent, beq_eq_false_iff_ne] at hp
  have hname : IsFileName (String.ofList piece) := by
    refine ⟨fun h => hi.1 ?_, fun h => hi.2 ?_, fun h => hp ?_, by rwa [String.toList_ofList]⟩
    · simpa using congrArg String.toList h
    · simpa using congrArg String.toList h
    · simpa using congrArg String.toList h
  exact ⟨⟨String.ofList piece, hname⟩, ofPiece_eq_into_iff.2 String.toList_ofList,
    String.toList_ofList⟩

end Move

/-- The extension of the name at the end of a route. -/
def Route.extension? (r : Route) : Option String := r.getLast?.bind FileName.extension?

namespace FileTree

/-! ## Following -/

section

variable {t : FileTree} {r s : Route}

theorem follow_cons_eq_ok_iff {m : Move} {ms : List Move} :
    t.follow r (m :: ms) = .ok s ↔ t.get? r = some .directory ∧
      match m with
      | .stay => t.follow r ms = .ok s
      | .up => t.follow r.dropLast ms = .ok s
      | .into name => name.text.utf8ByteSize ≤ 255 ∧ t.follow (r ++ [name]) ms = .ok s := by
  rw [follow.eq_def]
  dsimp only
  cases t.get? r with
  | none => simp
  | some e =>
    cases e with
    | file content => simp
    | directory =>
      cases m with
      | stay => simp
      | up => simp
      | into name =>
        by_cases hn : name.text.utf8ByteSize ≤ 255
        · simp [hn]
        · simp [hn]

theorem follow_append_eq_ok_iff {ms ns : List Move} :
    t.follow r (ms ++ ns) = .ok s ↔ ∃ q, t.follow r ms = .ok q ∧ t.follow q ns = .ok s := by
  induction ms generalizing r with
  | nil => simp [follow]
  | cons m ms ih =>
    rw [List.cons_append, follow_cons_eq_ok_iff]
    simp only [follow_cons_eq_ok_iff, and_assoc, exists_and_left]
    refine and_congr_right fun _ => ?_
    cases m with
    | stay => exact ih
    | up => exact ih
    | into name =>
      simp only [and_assoc, exists_and_left]
      exact and_congr_right fun _ => ih

theorem eq_of_follow_stays {ms : List Move} (hms : ∀ m ∈ ms, m = .stay)
    (h : t.follow r ms = .ok s) : s = r := by
  induction ms with
  | nil =>
    cases h
    rfl
  | cons m ms ih =>
    rw [hms m (by simp)] at h
    exact ih (fun m hm => hms m (by simp [hm])) (follow_cons_eq_ok_iff.1 h).2

/-- Where moves lead depends on the directories alone. -/
theorem follow_congr {t' : FileTree}
    (h : ∀ q, t'.get? q = some .directory ↔ t.get? q = some .directory) {ms : List Move} :
    t'.follow r ms = .ok s ↔ t.follow r ms = .ok s := by
  induction ms generalizing r with
  | nil => rfl
  | cons m ms ih =>
    rw [follow_cons_eq_ok_iff, follow_cons_eq_ok_iff, h]
    refine and_congr_right fun _ => ?_
    cases m with
    | stay => exact ih
    | up => exact ih
    | into name => exact and_congr_right fun _ => ih

end

/-! ## Routes of paths -/

section

variable {t : FileTree} {p : Path} {r s : Route} {e : Entry}

theorem route_eq_ok_iff :
    t.route p = .ok r ↔ p.check = .ok () ∧ t.follow (t.start p) p.moves = .ok r := by
  rw [route, bind_eq_ok_iff]
  constructor
  · rintro ⟨u, hc, hf⟩
    exact ⟨hc, hf⟩
  · rintro ⟨hc, hf⟩
    exact ⟨(), hc, hf⟩

theorem find_eq_ok_iff : t.find p = .ok (r, e) ↔ t.route p = .ok r ∧ t.get? r = some e := by
  rw [find, bind_eq_ok_iff]
  constructor
  · rintro ⟨q, hq, h⟩
    cases hg : t.get? q with
    | none =>
      rw [hg] at h
      exact absurd h throw_ne_ok
    | some e' =>
      rw [hg] at h
      cases pure_eq_ok_iff.1 h
      exact ⟨hq, hg⟩
  · rintro ⟨hr, hg⟩
    exact ⟨r, hr, by rw [hg]; rfl⟩

/-- A file is written into a directory, under the last piece of the path, where no directory
stands. -/
theorem target_eq_ok_iff :
    t.target p = .ok r ↔ p.check = .ok () ∧ p.text.toList.getLast? ≠ some '/' ∧
      t.get? r ≠ some .directory ∧ ∃ last before d name,
        p.pieces.reverse.dropWhile (· == []) = last :: before ∧
        t.follow (t.start p) (before.reverse.map Move.ofPiece ++ [.stay]) = .ok d ∧
        Move.ofPiece last = .into name ∧ name.text.utf8ByteSize ≤ 255 ∧ r = d ++ [name] := by
  rw [target, bind_eq_ok_iff]
  constructor
  · rintro ⟨u, hc, h⟩
    refine ⟨hc, ?_⟩
    split at h
    · exact absurd h throw_ne_ok
    · rename_i last before hp
      obtain ⟨d, hd, h⟩ := bind_eq_ok_iff.1 h
      split at h
      · exact absurd h throw_ne_ok
      · exact absurd h throw_ne_ok
      · rename_i name hn
        dsimp only at h
        by_cases hs : p.text.toList.getLast? = some '/'
        · rw [if_pos hs] at h
          cases h
        by_cases hl : 255 < name.text.utf8ByteSize
        · rw [if_neg hs, if_pos hl] at h
          cases h
        rw [if_neg hs, if_neg hl] at h
        split at h
        · cases h
        · rename_i hg
          cases h
          exact ⟨hs, hg, last, before, d, name, hp, hd, hn, by omega, rfl⟩
  · rintro ⟨hc, hs, hg, last, before, d, name, hp, hd, hn, hl, rfl⟩
    refine ⟨(), hc, ?_⟩
    rw [hp]
    refine bind_eq_ok_iff.2 ⟨d, hd, ?_⟩
    rw [hn]
    dsimp only
    rw [if_neg hs, if_neg (by omega)]
    split
    · rename_i h
      exact absurd h hg
    · rfl

/-- A path that names something leads to what has this name. -/
theorem exists_route_eq_append {piece : List Char} {before : List (List Char)}
    (hp : p.lastPiece? = some (piece, before)) (h : t.route p = .ok r) :
    ∃ d name, r = d ++ [name] ∧ name.text.toList = piece := by
  obtain ⟨hidle, hparent, idle, hall, hpieces⟩ := Path.lastPiece?_eq_some_iff.1 hp
  have hmem : piece ∈ p.pieces := by
    rw [hpieces]
    simp
  obtain ⟨name, hinto, hname⟩ := Move.exists_ofPiece_eq_into hidle hparent
    (Path.slash_notMem_of_mem_pieces hmem)
  have hf := (route_eq_ok_iff.1 h).2
  rw [Path.moves, hpieces, List.map_append, List.map_cons, hinto] at hf
  obtain ⟨d, -, hd⟩ := follow_append_eq_ok_iff.1 hf
  -- the pieces behind it are idle, and idle pieces stay where they are
  refine ⟨d, name, ?_, hname⟩
  refine eq_of_follow_stays (fun m hm => ?_) (follow_cons_eq_ok_iff.1 hd).2.2
  obtain ⟨q, hq, rfl⟩ := List.mem_map.1 hm
  exact Move.ofPiece_of_isIdle (hall q hq)

theorem extension?_of_route (h : t.route p = .ok r) {ext : String}
    (hp : p.extension? = some ext) : Route.extension? r = some ext := by
  cases hl : p.lastPiece? with
  | none =>
    rw [Path.extension?, hl] at hp
    cases hp
  | some l =>
    obtain ⟨d, name, rfl, hname⟩ := exists_route_eq_append hl h
    rw [Path.extension?_of_lastPiece hl] at hp
    rw [Route.extension?, List.getLast?_concat, Option.bind_some, FileName.extension?, hname, hp]

/-! ## The target of a write -/

theorem lastPiece?_of_target (h : t.target p = .ok r) : p.lastPiece? ≠ none := by
  obtain ⟨-, -, -, last, before, d, name, hp, -, hn, -⟩ := target_eq_ok_iff.1 h
  have hlast := Move.ofPiece_eq_into_iff.1 hn
  obtain ⟨empty, hempty, hpieces⟩ := Path.exists_eq_append_of_dropWhile hp
  have hidle : ∀ q ∈ empty, Path.isIdle q = true := by
    intro q hq
    rw [eq_of_beq (hempty q hq)]
    rfl
  rw [Path.lastPiece?_eq_some_iff.2 ⟨by rw [← hlast, name.isIdle_eq_false],
    by rw [← hlast, name.isParent_eq_false], empty, hidle, hpieces⟩]
  simp

/-- A path leads to what is written by it. -/
theorem route_of_target (h : t.target p = .ok r) : t.route p = .ok r := by
  obtain ⟨hc, hs, -, last, before, d, name, hp, hd, hn, hl, rfl⟩ := target_eq_ok_iff.1 h
  obtain ⟨q, hq, hstay⟩ := follow_append_eq_ok_iff.1 hd
  obtain ⟨hdir, hnil⟩ := follow_cons_eq_ok_iff.1 hstay
  cases hnil
  have hne : p.text ≠ "" := by
    intro h0
    rw [Path.check, h0] at hc
    cases hc
  -- no empty piece is dropped, since one at the end would come from a slash at the end
  have hpieces : p.pieces = before.reverse ++ [last] := by
    have hd0 : p.pieces.reverse.dropWhile (· == []) = p.pieces.reverse := by
      cases hr : p.pieces.reverse with
      | nil => rfl
      | cons l ls =>
        refine List.dropWhile_cons_of_neg fun h0 => ?_
        rw [eq_of_beq h0] at hr
        refine Path.getLast?_pieces_ne hne hs ?_
        rw [List.getLast?_eq_head?_reverse, hr]
        rfl
    rw [hd0] at hp
    rw [← List.reverse_inj, hp]
    simp
  refine route_eq_ok_iff.2 ⟨hc, ?_⟩
  rw [Path.moves, hpieces, List.map_append]
  refine follow_append_eq_ok_iff.2 ⟨_, hq, ?_⟩
  show t.follow d [Move.ofPiece last] = _
  rw [hn]
  exact follow_cons_eq_ok_iff.2 ⟨hdir, hl, rfl⟩

end

/-! ## A file where no directory stands -/

section

variable {t : FileTree} {r : Route} {content : ByteArray}

theorem insert_insert (t : FileTree) (r : Route) (e e' : Entry) :
    (t.insert r e).insert r e' = t.insert r e' := by
  simp [insert]

variable (hr : t.get? r ≠ some .directory)

include hr

theorem ne_nil_of_not_directory : r ≠ [] := by
  rintro rfl
  exact hr rfl

theorem get?_insert_file_directory_iff {s : Route} :
    (t.insert r (.file content)).get? s = some .directory ↔ t.get? s = some .directory := by
  by_cases hs : s = r
  · rw [hs, get?_insert_self t (ne_nil_of_not_directory hr)]
    simp [hr]
  · rw [get?_insert_of_ne t hs]

theorem route_insert_file_iff {p : Path} {s : Route} :
    (t.insert r (.file content)).route p = .ok s ↔ t.route p = .ok s := by
  rw [route_eq_ok_iff, route_eq_ok_iff]
  exact and_congr_right fun _ => follow_congr fun _ => get?_insert_file_directory_iff hr

theorem find_insert_file_of_ne {p : Path} {s : Route} (hs : s ≠ r) {e : Entry} :
    (t.insert r (.file content)).find p = .ok (s, e) ↔ t.find p = .ok (s, e) := by
  rw [find_eq_ok_iff, find_eq_ok_iff, route_insert_file_iff hr, get?_insert_of_ne t hs]

/-- A path that leads elsewhere finds the same files. -/
theorem find_insert_file_iff {p : Path} (hp : t.route p ≠ .ok r) {s : Route} {bytes : ByteArray} :
    (t.insert r (.file content)).find p = .ok (s, .file bytes) ↔
      t.find p = .ok (s, .file bytes) := by
  by_cases hs : s = r
  · rw [hs, find_eq_ok_iff, find_eq_ok_iff, route_insert_file_iff hr]
    exact ⟨fun h => absurd h.1 hp, fun h => absurd h.1 hp⟩
  · exact find_insert_file_of_ne hr hs

theorem find_insert_file_directory_iff {p : Path} {s : Route} :
    (t.insert r (.file content)).find p = .ok (s, .directory) ↔ t.find p = .ok (s, .directory) := by
  rw [find_eq_ok_iff, find_eq_ok_iff, route_insert_file_iff hr, get?_insert_file_directory_iff hr]

theorem find_insert_file_self {p : Path} (hp : t.route p = .ok r) :
    (t.insert r (.file content)).find p = .ok (r, .file content) :=
  find_eq_ok_iff.2 ⟨(route_insert_file_iff hr).2 hp,
    get?_insert_self t (ne_nil_of_not_directory hr) _⟩

theorem target_insert_file_iff {p : Path} {s : Route} :
    (t.insert r (.file content)).target p = .ok s ↔ t.target p = .ok s := by
  rw [target_eq_ok_iff, target_eq_ok_iff, Ne, Ne, get?_insert_file_directory_iff hr]
  have hf : ∀ q ms d, (t.insert r (.file content)).follow q ms = .ok d ↔
      t.follow q ms = .ok d := fun q ms d =>
    follow_congr fun _ => get?_insert_file_directory_iff hr
  simp only [start, insert] at hf ⊢
  simp only [hf]

end

end FileTree

end HackVM
