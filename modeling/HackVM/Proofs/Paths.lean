import HackVM.Sources

/-!
# Names at the end of paths

What a path names is told by its last piece. Here it is followed through the ways in which paths
are put together: a path that is joined from a directory and a name ends in that name, and a path
with a replaced extension has that extension, unless it names nothing.
-/

namespace HackVM

open Text

/-! ## Pieces -/

namespace Text

theorem consFirst_append {c : Char} {ls : List (List Char)} (h : ls ≠ []) (ms : List (List Char)) :
    consFirst c (ls ++ ms) = consFirst c ls ++ ms := by
  cases ls with
  | nil => exact absurd rfl h
  | cons l ls => rfl

/-- Cutting at one separator cuts a text into the pieces on its two sides. -/
theorem split_append {p : Char → Bool} {c : Char} (hc : p c = true) (s t : List Char) :
    split p (s ++ c :: t) = split p s ++ split p t := by
  induction s with
  | nil => exact split_cons_of_pos hc t
  | cons a s ih =>
    rw [List.cons_append]
    cases ha : p a with
    | true => rw [split_cons_of_pos ha, split_cons_of_pos ha, ih, List.cons_append]
    | false =>
      rw [split_cons_of_neg ha, split_cons_of_neg ha, ih, consFirst_append (split_ne_nil p s)]

/-- A character at the end that is no separator stands in the last piece. -/
theorem exists_split_concat {p : Char → Bool} {c : Char} (hc : p c = false) (s : List Char) :
    ∃ ls l, split p (s ++ [c]) = ls ++ [l ++ [c]] := by
  induction s with
  | nil => exact ⟨[], [], split_of_forall (by simpa using hc)⟩
  | cons a s ih =>
    obtain ⟨ls, l, h⟩ := ih
    rw [List.cons_append]
    cases ha : p a with
    | true => exact ⟨[] :: ls, l, by rw [split_cons_of_pos ha, h, List.cons_append]⟩
    | false =>
      rw [split_cons_of_neg ha, h]
      cases ls with
      | nil => exact ⟨[], a :: l, rfl⟩
      | cons m ls => exact ⟨(a :: m) :: ls, l, rfl⟩

theorem split_intercalate {p : Char → Bool} {c : Char} (hc : p c = true) {ls : List (List Char)}
    (hne : ls ≠ []) (h : ∀ l ∈ ls, ∀ a ∈ l, p a = false) :
    split p (List.intercalate [c] ls) = ls := by
  induction ls with
  | nil => exact absurd rfl hne
  | cons l ls ih =>
    cases ls with
    | nil => rw [List.intercalate_singleton, split_of_forall (h l (by simp))]
    | cons m ls =>
      rw [List.intercalate_cons_cons, List.append_assoc, List.singleton_append,
        split_append_sep (h l (by simp)) hc,
        ih (List.cons_ne_nil m ls) fun k hk => h k (List.mem_cons_of_mem l hk)]

end Text

namespace Path

theorem slash_notMem_of_mem_pieces {p : Path} {piece : List Char} (h : piece ∈ p.pieces) :
    '/' ∉ piece := by
  intro hc
  simpa using (mem_split h '/' hc).1

theorem pieces_ofPieces {ps : List (List Char)} (hne : ps ≠ []) (h : ∀ q ∈ ps, '/' ∉ q) :
    (ofPieces ps).pieces = ps := by
  rw [pieces, ofPieces, String.toList_ofList]
  refine split_intercalate (by decide) hne fun q hq a ha => ?_
  rw [beq_eq_false_iff_ne]
  rintro rfl
  exact h q hq ha

/-- A path that does not end in a slash ends in a piece. -/
theorem getLast?_pieces_ne {p : Path} (hp : p.text ≠ "") (h : p.text.toList.getLast? ≠ some '/') :
    p.pieces.getLast? ≠ some [] := by
  rcases List.eq_nil_or_concat p.text.toList with hn | ⟨s, c, hs⟩
  · exact absurd (String.toList_eq_nil_iff.1 hn) hp
  · rw [List.concat_eq_append] at hs
    rw [hs, List.getLast?_concat] at h
    obtain ⟨ls, l, hl⟩ := exists_split_concat (p := (· == '/')) (by simpa using h) s
    rw [pieces, hs, hl, List.getLast?_concat]
    simp

/-! ## The last piece -/

theorem exists_eq_append_of_dropWhile {α : Type} {f : α → Bool} {l before : List α} {a : α}
    (h : l.reverse.dropWhile f = a :: before) :
    ∃ behind, (∀ b ∈ behind, f b = true) ∧ l = before.reverse ++ a :: behind := by
  have hsplit := List.takeWhile_append_dropWhile (p := f) (l := l.reverse)
  rw [h] at hsplit
  refine ⟨(l.reverse.takeWhile f).reverse, fun b hb => ?_, ?_⟩
  · exact List.all_eq_true.1 List.all_takeWhile b (List.mem_reverse.1 hb)
  · simpa using (congrArg List.reverse hsplit).symm

/-- The last piece is followed by idle ones only. -/
theorem lastPiece?_eq_some_iff {p : Path} {piece : List Char} {before : List (List Char)} :
    p.lastPiece? = some (piece, before) ↔
      isIdle piece = false ∧ isParent piece = false ∧
        ∃ idle, (∀ q ∈ idle, isIdle q = true) ∧ p.pieces = before.reverse ++ piece :: idle := by
  rw [lastPiece?]
  constructor
  · intro h
    split at h
    · cases h
    · rename_i l ls hl
      split at h
      · cases h
      · rename_i hp
        cases h
        refine ⟨?_, by simpa using hp, exists_eq_append_of_dropWhile hl⟩
        have := List.head?_dropWhile_not isIdle p.pieces.reverse
        simpa [hl] using this
  · rintro ⟨hi, hp, idle, hall, heq⟩
    have hd : p.pieces.reverse.dropWhile isIdle = piece :: before := by
      rw [heq, List.reverse_append, List.reverse_cons, List.reverse_reverse, List.append_assoc,
        List.dropWhile_append_of_pos fun q hq => hall q (List.mem_reverse.1 hq)]
      exact List.dropWhile_cons_of_neg (by simp [hi])
    rw [hd]
    show (if isParent piece = true then none else some (piece, before)) = _
    rw [if_neg (by simp [hp])]

theorem lastPiece?_of_pieces {p : Path} {before : List (List Char)} {piece : List Char}
    (h : p.pieces = before ++ [piece]) (hi : isIdle piece = false) (hp : isParent piece = false) :
    p.lastPiece? = some (piece, before.reverse) :=
  lastPiece?_eq_some_iff.2 ⟨hi, hp, [], by simp, by rw [h, List.reverse_reverse]⟩

theorem extension?_of_lastPiece {p : Path} {piece : List Char} {before : List (List Char)}
    (h : p.lastPiece? = some (piece, before)) :
    p.extension? = (splitName piece).2.map String.ofList := by
  rw [extension?, h]
  rfl

/-! ## Stem and extension of a name -/

/-- The extension is what stands behind the last dot. -/
theorem splitName_append {stem ext : List Char} (hs : stem ≠ []) (he : '.' ∉ ext) :
    splitName (stem ++ '.' :: ext) = (stem, some ext) := by
  have hc : cut? '.' (stem ++ '.' :: ext).reverse = some (ext.reverse, stem.reverse) := by
    rw [List.reverse_append, List.reverse_cons, List.append_assoc, List.singleton_append]
    refine cut?_append (fun c hc => ?_) _
    rintro rfl
    exact he (List.mem_reverse.1 hc)
  rw [splitName, hc]
  simp [hs]

theorem splitName_fst_ne_nil {name : List Char} (h : name ≠ []) : (splitName name).1 ≠ [] := by
  rw [splitName]
  split
  · rename_i ext stem _
    split
    · exact h
    · rename_i hs
      simpa using hs
  · exact h

theorem slash_notMem_splitName_fst {name : List Char} (h : '/' ∉ name) :
    '/' ∉ (splitName name).1 := by
  rw [splitName]
  split
  · rename_i ext stem hc
    split
    · exact h
    · rw [cut?] at hc
      split at hc
      · cases hc
      · rename_i c rest hd
        cases hc
        intro hm
        have : '/' ∈ name.reverse.dropWhile (· != '.') := by
          rw [hd]
          exact List.mem_cons_of_mem c (List.mem_reverse.1 hm)
        exact h (List.mem_reverse.1 ((List.dropWhile_sublist _).mem this))
  · exact h

theorem isIdle_append_ext {stem ext : List Char} (h : stem ≠ []) :
    isIdle (stem ++ '.' :: ext) = false := by
  cases stem with
  | nil => exact absurd rfl h
  | cons c stem => simp [isIdle]

theorem isParent_append_ext {stem ext : List Char} (h : stem ≠ []) (he : ext ≠ []) :
    isParent (stem ++ '.' :: ext) = false := by
  rw [isParent, beq_eq_false_iff_ne]
  intro heq
  have hlen := congrArg List.length heq
  have := List.length_pos_iff.2 h
  have := List.length_pos_iff.2 he
  simp only [List.length_append, List.length_cons, List.length_nil] at hlen
  omega

/-! ## Paths put together -/

/-- A path that names anything has its extension after a replacement. -/
theorem extension?_withExtension (p : Path) {ext : String} (hne : ext.toList ≠ [])
    (hdot : '.' ∉ ext.toList) (hslash : '/' ∉ ext.toList) :
    (p.withExtension ext).lastPiece? = none ∨ (p.withExtension ext).extension? = some ext := by
  rw [withExtension, addExtension]
  cases hq : p.dropExtension.lastPiece? with
  | none => exact .inl hq
  | some l =>
    rcases l with ⟨name, before⟩
    right
    obtain ⟨hidle, -, idle, -, hpieces⟩ := lastPiece?_eq_some_iff.1 hq
    have hmem : ∀ q ∈ name :: before, '/' ∉ q := fun q h =>
      slash_notMem_of_mem_pieces (p := p.dropExtension) (by
        rw [hpieces]
        rcases List.mem_cons.1 h with rfl | h
        · simp
        · simp [h])
    have hn : name ≠ [] := by
      rintro rfl
      cases hidle
    have hstem := splitName_fst_ne_nil hn
    have hp : (ofPieces (before.reverse ++ [(splitName name).1 ++ '.' :: ext.toList])).pieces =
        before.reverse ++ [(splitName name).1 ++ '.' :: ext.toList] := by
      refine pieces_ofPieces (by simp) fun q h => ?_
      rcases List.mem_append.1 h with h | h
      · exact hmem q (List.mem_cons_of_mem name (List.mem_reverse.1 h))
      · rw [List.mem_singleton.1 h]
        simp [slash_notMem_splitName_fst (hmem name (by simp)), hslash]
    show (ofPieces _).extension? = some ext
    rw [extension?_of_lastPiece (lastPiece?_of_pieces hp (isIdle_append_ext hstem)
      (isParent_append_ext hstem hne)), splitName_append hstem hdot]
    simp

example : ((Path.mk "/p//x.vm/").withExtension "asm").extension? = some "asm" ∧
    ((Path.mk "p/..vm").withExtension "asm").lastPiece? = none := by decide

end Path

namespace FileName

/-- The extension of a name in a directory. -/
def extension? (n : FileName) : Option String :=
  (Path.splitName n.text.toList).2.map String.ofList

theorem isIdle_eq_false (n : FileName) : Path.isIdle n.text.toList = false := by
  obtain ⟨h0, h1, -, -⟩ := n.isFileName
  rw [Path.isIdle, Bool.or_eq_false_iff, beq_eq_false_iff_ne, beq_eq_false_iff_ne]
  exact ⟨fun h => h0 (String.toList_eq_nil_iff.1 h),
    fun h => h1 (String.toList_inj.1 (h.trans (by decide)))⟩

theorem isParent_eq_false (n : FileName) : Path.isParent n.text.toList = false := by
  obtain ⟨-, -, h2, -⟩ := n.isFileName
  rw [Path.isParent, beq_eq_false_iff_ne]
  exact fun h => h2 (String.toList_inj.1 (h.trans (by decide)))

end FileName

namespace Path

/-- A joined path ends in the name it is joined from. It stands behind the pieces of the
directory, or in place of the empty piece at their end. -/
theorem exists_pieces_join (p : Path) {name : String} (h : '/' ∉ name.toList) :
    ∃ before, (p.pieces = before ∨ p.pieces = before ++ [[]]) ∧
      (p.join name).pieces = before ++ [name.toList] := by
  have hname : split (· == '/') name.toList = [name.toList] := by
    refine split_of_forall fun c hc => beq_eq_false_iff_ne.2 ?_
    rintro rfl
    exact h hc
  rcases List.eq_nil_or_concat p.text.toList with hn | ⟨s, c, hs⟩
  · refine ⟨[], .inr ?_, ?_⟩
    · simp [pieces, hn]
    · simp [join, pieces, hn, hname]
  · rw [List.concat_eq_append] at hs
    by_cases hc : c = '/'
    · have : (p.join name).text.toList = s ++ '/' :: name.toList := by simp [join, hs, hc]
      refine ⟨split (· == '/') s, .inr ?_, ?_⟩
      · rw [pieces, hs, hc, split_append (by decide), split_nil]
      · rw [pieces, this, split_append (by decide), hname]
    · have : (p.join name).text.toList = p.text.toList ++ '/' :: name.toList := by
        simp [join, hs, hc]
      refine ⟨split (· == '/') p.text.toList, .inl rfl, ?_⟩
      rw [pieces, this, split_append (by decide), hname]

theorem extension?_join (p : Path) (n : FileName) : (p.join n.text).extension? = n.extension? := by
  obtain ⟨before, -, h⟩ := exists_pieces_join p n.isFileName.2.2.2
  exact extension?_of_lastPiece (lastPiece?_of_pieces h n.isIdle_eq_false n.isParent_eq_false)

/-- The extension that is put behind a whole name is that of the joined path. -/
theorem extension?_join_append (p : Path) (n : FileName) {ext : String} (hne : ext.toList ≠ [])
    (hdot : '.' ∉ ext.toList) (hslash : '/' ∉ ext.toList) :
    (p.join (n.text ++ "." ++ ext)).extension? = some ext := by
  have htext : (n.text ++ "." ++ ext).toList = n.text.toList ++ '.' :: ext.toList := by simp
  have hn : n.text.toList ≠ [] := fun h => n.isFileName.1 (String.toList_eq_nil_iff.1 h)
  have hs : '/' ∉ (n.text ++ "." ++ ext).toList := by
    rw [htext]
    simp [n.isFileName.2.2.2, hslash]
  obtain ⟨before, -, h⟩ := exists_pieces_join p hs
  rw [htext] at h
  rw [extension?_of_lastPiece (lastPiece?_of_pieces h (isIdle_append_ext hn)
    (isParent_append_ext hn hne)), splitName_append hn hdot]
  simp

end Path

end HackVM
