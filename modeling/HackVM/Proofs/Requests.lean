import HackVM.Proofs.Uniqueness

/-!
# Labels that are asked for

A numbering is asked for labels: for a call, under any name, it answers the return label, and for
a comparison the labels of its two branches. Whatever is asked for and in whatever order, no
label is answered twice and the halt label never: labels for one purpose differ in their numbers,
labels for different purposes in the word in front of the number, and neither depends on the name
in front of that word.
-/

namespace HackVM

/-- What labels are asked for. -/
inductive LabelRequest
  | call (function : String)
  | comparison
deriving DecidableEq, Repr

namespace LabelRequest

def isCall : LabelRequest → Bool
  | call _ => true
  | comparison => false

def isComparison : LabelRequest → Bool
  | call _ => false
  | comparison => true

/-- The labels that answer the request. -/
def labels (n : Numbering) : LabelRequest → List String
  | call f => [n.returnLabel f]
  | comparison => [n.trueLabel, n.endLabel]

/-- The numbering behind the answer. -/
def after (n : Numbering) : LabelRequest → Numbering
  | call _ => n.afterCall
  | comparison => n.afterComparison

end LabelRequest

namespace Numbering

/-- The labels that answer requests one after the other. -/
def answers (n : Numbering) : List LabelRequest → List String
  | [] => []
  | r :: rs => r.labels n ++ (r.after n).answers rs

/-- The numbering behind the answers. -/
def behind (n : Numbering) : List LabelRequest → Numbering
  | [] => n
  | r :: rs => (r.after n).behind rs

end Numbering

/-! ## Counting -/

namespace LabelRequest

variable (r : LabelRequest) (n : Numbering)

theorem calls_after : (r.after n).calls = n.calls + if r.isCall then 1 else 0 := by
  cases r <;> rfl

theorem comparisons_after :
    (r.after n).comparisons = n.comparisons + if r.isComparison then 1 else 0 := by
  cases r <;> rfl

end LabelRequest

namespace Numbering

theorem calls_behind (n : Numbering) (rs : List LabelRequest) :
    (n.behind rs).calls = n.calls + rs.countP (·.isCall) := by
  induction rs generalizing n with
  | nil => rfl
  | cons r rs ih =>
    rw [behind, ih, r.calls_after, List.countP_cons]
    omega

theorem comparisons_behind (n : Numbering) (rs : List LabelRequest) :
    (n.behind rs).comparisons = n.comparisons + rs.countP (·.isComparison) := by
  induction rs generalizing n with
  | nil => rfl
  | cons r rs ih =>
    rw [behind, ih, r.comparisons_after, List.countP_cons]
    omega

end Numbering

/-! ## Requests of commands -/

open LabelOrigin

namespace LabelRequest

/-- A command whose expansion makes the request. -/
def command : LabelRequest → Command
  | call f => .call f 0
  | comparison => .arithmetic .eq

/-- A site of this command; where it stands makes no difference to its labels. -/
def site (r : LabelRequest) : Site := ⟨⟨"", .unit ""⟩, r.command.text, r.command⟩

theorem after_eq (r : LabelRequest) (n : Numbering) : r.after n = n.after r.command := by
  cases r <;> rfl

theorem labels_eq (r : LabelRequest) (n : Numbering) :
    r.labels n = (r.site.origins n).map LabelOrigin.text := by
  cases r with
  | call f =>
    show [n.returnLabel f] = [(returning n f).text]
    rw [text_returning]
  | comparison => rfl

end LabelRequest

/-- Requests are answered like the commands that make them. -/
theorem Numbering.answers_eq (n : Numbering) (rs : List LabelRequest) :
    n.answers rs = (origins (sitePieces n (rs.map (·.site)))).map LabelOrigin.text := by
  induction rs generalizing n with
  | nil => rfl
  | cons r rs ih =>
    rw [answers, r.labels_eq, r.after_eq, ih, List.map_cons, sitePieces, origins, origins,
      List.flatMap_cons, List.map_append]
    rfl

/-- What is answered has a number behind a plain word. -/
theorem plain_of_mem_requests {n : Numbering} {rs : List LabelRequest} {a : LabelOrigin}
    (h : a ∈ origins (sitePieces n (rs.map (·.site)))) : a.Plain ∧ a.isInvented = true := by
  obtain ⟨q, hq, ha⟩ := List.mem_flatMap.1 h
  obtain ⟨s, hs, k, rfl⟩ := mem_sitePieces hq
  obtain ⟨r, -, rfl⟩ := List.mem_map.1 hs
  cases r with
  | call f =>
    rw [List.mem_singleton.1 ha]
    exact ⟨(by decide : '$' ∉ "ret".toList ∧ '.' ∉ "ret".toList), rfl⟩
  | comparison =>
    rcases List.mem_pair.1 (show a ∈ [onTrue k, atEnd k] from ha) with rfl | rfl
    · exact ⟨(by decide : '$' ∉ "TRUE".toList ∧ '.' ∉ "TRUE".toList), rfl⟩
    · exact ⟨(by decide : '$' ∉ "END".toList ∧ '.' ∉ "END".toList), rfl⟩

/-! ## Distinct labels -/

/-- Plain labels that are made up have one origin if they are spelt alike. -/
theorem LabelOrigin.eq_of_isInvented {a b : LabelOrigin} (ha : a.Plain ∧ a.isInvented = true)
    (hb : b.Plain ∧ b.isInvented = true) (h : a.text = b.text) : a = b := by
  rcases LabelOrigin.eq_of_text_eq ha.1 hb.1 h with he | ⟨rfl, -⟩ | ⟨-, rfl⟩
  · exact he
  · cases ha.2
  · cases hb.2

theorem Numbering.nodup_answers (n : Numbering) (rs : List LabelRequest) :
    (haltLabel :: n.answers rs).Nodup := by
  let made := LabelOrigin.halt :: origins (sitePieces n (rs.map (·.site)))
  have hplain : ∀ a ∈ made, a.Plain ∧ a.isInvented = true :=
    List.forall_mem_cons.2 ⟨⟨trivial, rfl⟩, fun a ha => plain_of_mem_requests ha⟩
  have hnodup : made.Nodup := by
    refine List.nodup_cons.2 ⟨fun h => beyond_of_mem_sitePieces h, ?_⟩
    exact (inventedOnce_sitePieces n _).imp_of_mem fun ha _ hne => hne (plain_of_mem_requests ha).2
  rw [n.answers_eq]
  show (made.map LabelOrigin.text).Nodup
  exact hnodup.map_on fun a ha b hb => LabelOrigin.eq_of_isInvented (hplain a ha) (hplain b hb)

/-- Whatever is asked for, and in whatever order, the labels that are answered are distinct from
each other and from the halt label, and the numbering has counted the requests of each kind. -/
theorem labels_of_requests (rs : List LabelRequest) :
    (haltLabel :: Numbering.start.answers rs).Nodup ∧
      (Numbering.start.behind rs).calls = rs.countP (·.isCall) ∧
      (Numbering.start.behind rs).comparisons = rs.countP (·.isComparison) := by
  refine ⟨Numbering.start.nodup_answers rs, ?_, ?_⟩
  · rw [Numbering.calls_behind, Numbering.start, Nat.zero_add]
  · rw [Numbering.comparisons_behind, Numbering.start, Nat.zero_add]

/-- A function that is named like a label of a comparison. -/
example : Numbering.start.answers [.call "f", .comparison, .call "CMP$TRUE.1"] =
    ["f$ret.1", "CMP$TRUE.1", "CMP$END.1", "CMP$TRUE.1$ret.2"] := by decide

end HackVM
