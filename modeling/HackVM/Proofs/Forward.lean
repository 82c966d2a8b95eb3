import HackVM.Proofs.Containment
import HackVM.Proofs.Faults
import HackVM.Proofs.Halting

/-!
# Programs that only go forward

If a source calls nothing and each of its jumps goes to a label behind the jump, then each jump of
the program goes to a label behind it, also the two of a comparison; only the halt loop at the end
goes back. So every step that the machine takes brings it closer to the end: it executes fewer words
than the program has, and the one loop that it can come to is the halt loop.
-/

namespace HackVM

open Assembly Instruction Sequence

/-! ## Sources -/

/-- The source calls nothing, does not return, and jumps only to labels that are declared behind
the jump, in a scope of the same name. -/
structure GoesForward (units : List SourceUnit) : Prop where
  call : ∀ s ∈ sites units, ∀ name args, s.command ≠ .call name args
  ret : ∀ s ∈ sites units, s.command ≠ .ret
  jump : ∀ front s back, sites units = front ++ s :: back →
    ∀ name, s.command = .goto name ∨ s.command = .ifGoto name →
      ∃ t ∈ back, t.command = .label name ∧ t.place.scope.name = s.place.scope.name

/-- Whether a site with `back` behind it neither calls nor returns, and jumps only to a label
there. -/
def Site.goesForward (back : List Site) (s : Site) : Bool :=
  match s.command with
  | .goto name | .ifGoto name =>
    back.any fun t => t.command == .label name && t.place.scope.name == s.place.scope.name
  | .call _ _ | .ret => false
  | _ => true

def goForward : List Site → Bool
  | [] => true
  | s :: back => s.goesForward back && goForward back

theorem Site.goesForward_iff {back : List Site} {s : Site} :
    s.goesForward back = true ↔ (∀ name args, s.command ≠ .call name args) ∧ s.command ≠ .ret ∧
      ∀ name, s.command = .goto name ∨ s.command = .ifGoto name →
        ∃ t ∈ back, t.command = .label name ∧ t.place.scope.name = s.place.scope.name := by
  rw [goesForward]
  cases s.command <;> simp

theorem goForward_iff {ss : List Site} :
    goForward ss = true ↔ ∀ front s back, ss = front ++ s :: back → s.goesForward back = true := by
  induction ss with
  | nil => simp [goForward]
  | cons s ss ih =>
    rw [goForward, Bool.and_eq_true, ih]
    constructor
    · rintro ⟨hs, h⟩ front t back he
      cases front with
      | nil =>
        cases he
        exact hs
      | cons c front => exact h front t back (List.cons.inj he).2
    · intro h
      refine ⟨h [] s ss rfl, ?_⟩
      intro front t back he
      exact h (s :: front) t back (by rw [he]; rfl)

theorem goesForward_iff {units : List SourceUnit} :
    GoesForward units ↔ goForward (sites units) = true := by
  rw [goForward_iff]
  constructor
  · intro h front s back he
    have hs : s ∈ sites units := by simp [he]
    exact Site.goesForward_iff.2 ⟨h.call s hs, h.ret s hs, h.jump front s back he⟩
  · intro h
    refine ⟨?_, ?_, ?_⟩
    · intro s hs
      obtain ⟨front, back, he⟩ := List.append_of_mem hs
      exact (Site.goesForward_iff.1 (h front s back he)).1
    · intro s hs
      obtain ⟨front, back, he⟩ := List.append_of_mem hs
      exact (Site.goesForward_iff.1 (h front s back he)).2.1
    · intro front s back he
      exact (Site.goesForward_iff.1 (h front s back he)).2.2

instance (units : List SourceUnit) : Decidable (GoesForward units) :=
  decidable_of_iff' _ goesForward_iff

theorem GoesForward.targetsDeclared {units : List SourceUnit} (h : GoesForward units) :
    TargetsDeclared units := by
  refine ⟨?_, ?_, ?_⟩
  · intro s hs name hg
    obtain ⟨front, back, he⟩ := List.append_of_mem hs
    obtain ⟨t, ht, hl⟩ := h.jump front s back he name hg
    exact ⟨t, by simp [he, ht], hl⟩
  · intro s hs name args hc
    exact absurd hc (h.call s hs name args)
  · intro s hs name args hc
    exact absurd hc (h.call s hs name args)

/-! ## Code -/

/-- Each jump of the code stands behind the load of a label that is declared behind the jump, but
for a jump at the very end. -/
inductive Ahead : List Instruction → Prop
  | last {name : String} {comp : Comp} {j : Jump} : Ahead [load (.symbol name), branch comp j]
  | jump {name : String} {comp : Comp} {j : Jump} {code : List Instruction} :
    label name ∈ code → Ahead code → Ahead (load (.symbol name) :: branch comp j :: code)
  | other {i : Instruction} {code : List Instruction} :
    i.isJump = false → Ahead code → Ahead (i :: code)

section

variable {code rest : List Instruction}

theorem Ahead.label_mem {front back : List Instruction} {name : String} {dest : Option Dest}
    {comp : Comp} {j : Jump} (h : Ahead code)
    (hc : code = front ++ load (.symbol name) :: compute dest comp (some j) :: back) :
    label name ∈ back ∨ back = [] := by
  induction h generalizing front with
  | last =>
    cases front with
    | nil =>
      cases hc
      exact .inr rfl
    | cons i front =>
      have hl := congrArg List.length (List.cons.inj hc).2
      simp at hl
      omega
  | jump hm _ ih =>
    cases front with
    | nil =>
      cases hc
      exact .inl hm
    | cons i front =>
      cases front with
      | nil => cases (List.cons.inj hc).2
      | cons k front => exact ih (List.cons.inj (List.cons.inj hc).2).2
  | other hi hs ih =>
    cases front with
    | nil =>
      -- a load that is no first part of a jump has no jump behind it
      cases hc
      cases hs with
      | other hj _ => cases hj
    | cons i front => exact ih (List.cons.inj hc).2

theorem ahead_append_of_straight (h : isStraight code = true) (hr : Ahead rest) :
    Ahead (code ++ rest) := by
  induction code with
  | nil => exact hr
  | cons i code ih =>
    rw [isStraight, List.all_cons, Bool.and_eq_true, Bool.not_eq_true'] at h
    exact .other h.1 (ih h.2)

theorem ahead_quoted (h : Ahead code) (o : Options) (t : String) :
    Ahead (SourceUnit.quoted o t code) := by
  rw [SourceUnit.quoted]
  split
  · exact .other rfl h
  · exact h

theorem quoted_append (o : Options) (t : String) (p q : List Instruction) :
    SourceUnit.quoted o t (p ++ q) = SourceUnit.quoted o t p ++ q := by
  rw [SourceUnit.quoted, SourceUnit.quoted]
  split
  · rfl
  · rfl

namespace Expansion

/-- Both branches of a comparison go to labels behind them. -/
theorem ahead_comparison (n : Numbering) (j : Jump) (hr : Ahead rest) :
    Ahead (comparison n j ++ rest) := by
  have hpush : Ahead (pushD ++ rest) := ahead_append_of_straight rfl hr
  have hend : Ahead (label n.endLabel :: (pushD ++ rest)) := .other rfl hpush
  have htrue : Ahead (label n.trueLabel :: assign .d .minusOne :: label n.endLabel ::
      (pushD ++ rest)) := .other rfl (.other rfl hend)
  have htest : Ahead (testD j n.trueLabel n.endLabel ++ (pushD ++ rest)) :=
    .jump (by simp) (.other rfl (.jump (by simp) htrue))
  have hfront : isStraight (popD ++ popA ++ [subFromA]) = true := rfl
  rw [comparison, List.append_assoc, List.append_assoc _ (testD _ _ _)]
  exact ahead_append_of_straight hfront htest

theorem ahead_arithmetic (n : Numbering) (op : ArithmeticOp) (hr : Ahead rest) :
    Ahead (arithmetic n op ++ rest) := by
  cases op with
  | eq | gt | lt => exact ahead_comparison n _ hr
  | _ => exact ahead_append_of_straight rfl hr

end Expansion

/-- The code of a command may stand in front, if what the command jumps to is declared behind it. -/
theorem Command.ahead_expand {c : Command} {place : Place} {n : Numbering}
    (h : c.expand place n = .ok code) (hr : Ahead rest)
    (hlabel : ∀ name, c = .goto name ∨ c = .ifGoto name →
      Instruction.label (place.scope.qualify name) ∈ rest)
    (hcall : ∀ name args, c ≠ .call name args) (hret : c ≠ .ret) : Ahead (code ++ rest) := by
  cases c with
  | push segment i =>
    cases h
    exact ahead_append_of_straight (Expansion.isStraight_push _ _ _) hr
  | pop segment i => exact ahead_append_of_straight (Expansion.isStraight_pop h) hr
  | arithmetic op =>
    cases h
    exact Expansion.ahead_arithmetic n op hr
  | label name =>
    cases h
    exact .other rfl hr
  | goto name =>
    cases h
    exact .jump (hlabel name (.inl rfl)) hr
  | ifGoto name =>
    cases h
    have hj : Ahead (jumpUnlessZero (place.scope.qualify name) ++ rest) :=
      .jump (hlabel name (.inr rfl)) hr
    rw [List.append_assoc]
    exact ahead_append_of_straight rfl hj
  | function name locals =>
    cases h
    exact ahead_append_of_straight (Expansion.isStraight_function _ _) hr
  | call name args => exact absurd rfl (hcall name args)
  | ret => exact absurd rfl hret

end

/-- A label command among the sites declares its label in their code. -/
theorem label_mem_instructions {o : Options} {ss : List Site} {n : Numbering} {t : Site}
    (ht : t ∈ ss) {name : String} (hc : t.command = .label name) :
    label (t.place.scope.qualify name) ∈ instructions o (sitePieces n ss) := by
  obtain ⟨k, hk⟩ := exists_mem_sitePieces (n := n) ht
  refine mem_labels_iff.1 (mem_labels_instructions.2 ⟨_, hk, ?_⟩)
  rw [code_of_command hc rfl]
  exact List.mem_singleton_self _

theorem ahead_sitePieces {o : Options} {ss : List Site} {rest : List Instruction}
    (h : goForward ss = true) (ha : ∀ s ∈ ss, s.Accepted) (hr : Ahead rest) (n : Numbering) :
    Ahead (instructions o (sitePieces n ss) ++ rest) := by
  induction ss generalizing n with
  | nil => exact hr
  | cons s ss ih =>
    rw [goForward, Bool.and_eq_true, Site.goesForward_iff] at h
    obtain ⟨⟨hcall, hret, hjump⟩, hss⟩ := h
    obtain ⟨code, hx⟩ := Command.exists_expand (ha s (by simp)).inRange s.place n
    have hback := ih hss (fun t ht => ha t (by simp [ht])) (n.after s.command)
    rw [sitePieces, instructions, List.flatMap_cons, code_command hx, List.append_assoc,
      ← quoted_append]
    refine ahead_quoted (Command.ahead_expand hx hback ?_ hcall hret) o _
    intro name hg
    obtain ⟨t, ht, hl, hs⟩ := hjump name hg
    rw [← Scope.qualify_congr hs]
    exact List.mem_append_left _ (label_mem_instructions ht hl)

/-! ## Programs -/

/-- What is known of a program that only goes forward. -/
structure OnlyForward (p : Program) : Prop where
  count_le : p.executableCount ≤ maxWord
  labels_nodup : (labels p.instructions).Nodup
  isSealed : Sealed p.Resolves p.instructions
  ahead : Ahead p.instructions
  halt : ∃ body, p.instructions = body ++ label haltLabel :: jumpTo haltLabel

theorem Translated.onlyForward {o : Options} {units : List SourceUnit} {p : Program}
    (h : Translated o units p) (hb : p.hasBootstrap = false) (hc : p.executableCount ≤ maxWord)
    (hf : GoesForward units) : OnlyForward p := by
  have hp : p.instructions =
      HackVM.instructions o (sitePieces (firstNumbering false) (sites units)) ++
        SourceUnit.quoted o "halt" Expansion.haltLoop := by
    rw [h.instructions, pieces, ← h.hasBootstrap, hb, if_neg Bool.false_ne_true,
      if_neg Bool.false_ne_true, List.nil_append, instructions_append]
    exact congrArg _ (List.flatMap_singleton _ _)
  have hs : Ahead (SourceUnit.quoted o "halt" Expansion.haltLoop) :=
    ahead_quoted (.other rfl .last) o _
  refine ⟨hc, h.labels_nodup, h.sealed_instructions hb hc hf.targetsDeclared hf.ret, ?_, ?_⟩
  · rw [hp]
    exact ahead_sitePieces (goesForward_iff.1 hf) (fun s hs => h.accepted hs) hs _
  · have hq : SourceUnit.quoted o "halt" Expansion.haltLoop =
        SourceUnit.quoted o "halt" [] ++ Expansion.haltLoop := quoted_append o _ [] _
    rw [hp, hq, ← List.append_assoc]
    exact ⟨_, rfl⟩

theorem Sealed.two_le_words {target : String → Prop} {code : List Instruction}
    (h : Sealed target code) : 2 ≤ words code := by
  induction h with
  | last _ => exact Nat.le_refl 2
  | jump _ _ ih =>
    rw [words_load, branch, words_compute]
    omega
  | other _ _ ih =>
    rw [words_cons]
    omega

theorem Program.DeclaresAt.unique {p : Program} {name : String} {a b : Nat}
    (hn : (labels p.instructions).Nodup) (ha : p.DeclaresAt name a) (hb : p.DeclaresAt name b) :
    a = b :=
  Option.some.inj (((Rom.labelAddress?_link_iff hn).2 ha).symm.trans
    ((Rom.labelAddress?_link_iff hn).2 hb))

namespace OnlyForward

variable {p : Program} {m m' : Machine}

/-- The target of a jump lies behind the jump, and in front of the end. -/
theorem target (h : OnlyForward p) {front back : List Instruction} {name : String}
    {dest : Option Dest} {comp : Comp} {j : Jump}
    (hp : p.instructions = front ++ load (.symbol name) :: compute dest comp (some j) :: back)
    (hr : p.Resolves name) (hb : back ≠ []) :
    words front + 2 ≤ ((Rom.link p.instructions).value name).toNat ∧
      ((Rom.link p.instructions).value name).toNat + 2 ≤ p.executableCount := by
  obtain ⟨mid, rest, rfl⟩ := List.append_of_mem ((h.ahead.label_mem hp).resolve_right hb)
  have hp' : p.instructions = (front ++ load (.symbol name) :: compute dest comp (some j) :: mid) ++
      label name :: rest := by simp [hp]
  have ha := Program.DeclaresAt.unique h.labels_nodup hr ⟨_, rest, hp', rfl⟩
  have hrest := (h.isSealed.behind_label hp').two_le_words
  have hs : p.executableCount = words _ := congrArg words hp'
  rw [words_append, ← ha, words_label] at hs
  rw [words_append, words_load, words_compute] at ha
  omega

/-- The halt loop is at the end. -/
theorem toNat_haltLabel (h : OnlyForward p) :
    ((Rom.link p.instructions).value haltLabel).toNat + 2 = p.executableCount ∧
      p.DeclaresAt haltLabel ((Rom.link p.instructions).value haltLabel).toNat := by
  obtain ⟨body, hp⟩ := h.halt
  have hd : p.DeclaresAt haltLabel (words body) := ⟨body, _, hp, rfl⟩
  have hs : p.executableCount = words _ := congrArg words hp
  rw [words_append, words_label] at hs
  have hw : words body + 2 = p.executableCount := hs.symm
  have hc := h.count_le
  have ha := (Rom.labelAddress?_link_iff h.labels_nodup).2 hd
  rw [Rom.value_of_label lookup_predefined_haltLabel ha, toNat_ofNat_of_le (by omega)]
  exact ⟨hw, hd⟩

/-- A machine that is two words in front of the end is at the halt loop. -/
theorem haltsAt_end (h : OnlyForward p) (he : m.pc.toNat + 2 = p.executableCount) :
    (Rom.link p.instructions).haltsAt m.pc = true := by
  obtain ⟨body, hp⟩ := h.halt
  obtain ⟨hw, hd⟩ := h.toNat_haltLabel
  have hb := hd.unique h.labels_nodup ⟨body, _, hp, rfl⟩
  have hpc : m.pc = (Rom.link p.instructions).value haltLabel := BitVec.eq_of_toNat_eq (by omega)
  have hload : p.instructions = (body ++ [label haltLabel]) ++
      load (.symbol haltLabel) :: [branch .zero .always] := by simp [hp, jumpTo]
  have hl := Rom.code_of_load hload
  have hj := Rom.code_behind_load hload
  have hwl : words (body ++ [label haltLabel]) = m.pc.toNat := by
    rw [words_append, words_label, words_nil, hpc]
    omega
  rw [hwl] at hl hj
  rw [Rom.haltsAt, hl, hj, hpc]
  exact beq_self_eq_true _

/-- The only halt loop that control comes to is the one at the end. -/
theorem at_end (h : OnlyForward p) (hm : Contained p m)
    (hh : (Rom.link p.instructions).haltsAt m.pc = true) :
    m.pc.toNat + 2 = p.executableCount := by
  have hsize : (Rom.link p.instructions).size ≤ maxWord := by
    rw [Rom.size_link]
    exact h.count_le
  obtain ⟨dest, hloop⟩ := Rom.exists_loopAt hsize hh
  have hload := hloop.load
  have hjump := hloop.jump
  cases hm with
  | @next front back i hp hw hi hs =>
    rw [← hw] at hload hjump
    cases hs with
    | last _ =>
      have hs : p.executableCount = words _ := congrArg words hp
      rw [words_append] at hs
      rw [← hw, hs]
      rfl
    | @jump name comp j back ht hb =>
      have hne : back ≠ [] := by
        rintro rfl
        exact absurd hb.two_le_words (by decide)
      have hv := (h.target hp ht hne).1
      rw [Rom.code_of_load hp] at hload
      have hpc : (Rom.link p.instructions).value name = m.pc :=
        Op.load.inj (Option.some.inj hload)
      rw [hpc] at hv
      omega
    | other hj hb =>
      obtain ⟨skip, k, rest, rfl, hskip, hk, hrest⟩ := hb.exists_executable
      have hp' : p.instructions = (front ++ i :: skip) ++ k :: rest := by simp [hp]
      have hw' : words (front ++ i :: skip) = words front + 1 := by
        rw [words_append, words_cons, hskip, if_pos hi]
      rw [← hw'] at hjump
      -- the word behind is no jump
      cases Rom.jump_eq_none_of_straight hp' hk hrest.isJump_head hjump
  | jump hp hw _ _ _ =>
    rw [← hw, Rom.code_behind_load hp] at hload
    cases hload

/-- A step that does not halt the machine goes forward, and not past the halt loop. -/
theorem pc_lt_of_step (h : OnlyForward p) (hm : Contained p m)
    (he : m.pc.toNat + 2 ≤ p.executableCount)
    (hh : (Rom.link p.instructions).haltsAt m.pc = false)
    (hstep : m.step (Rom.link p.instructions) = (none, m')) :
    m.pc.toNat < m'.pc.toNat ∧ m'.pc.toNat + 2 ≤ p.executableCount := by
  have hlt : m.pc.toNat + 2 < p.executableCount := by
    refine Nat.lt_of_le_of_ne he fun heq => ?_
    rw [h.haltsAt_end heq] at hh
    cases hh
  have hnext := toNat_pc_succ (Nat.lt_of_lt_of_le hm.pc_lt h.count_le)
  rw [Machine.step_of_not_haltsAt hh] at hstep
  obtain ⟨op, hop, rfl⟩ := Machine.eq_perform_of_execute hstep
  cases hm with
  | next hp hw hi hs =>
    rw [← hw] at hop
    have hpc : ({ m with steps := m.steps + 1 }.perform op).pc = m.pc + 1 :=
      Rom.pc_perform_of_straight hp hi hs.isJump_head hop _
    rw [hpc, hnext]
    omega
  | @jump front back name comp j hp hw hv hr _ =>
    rw [← hw, Rom.code_behind_load hp] at hop
    cases hop
    have hne : back ≠ [] := by
      rintro rfl
      have hs : p.executableCount = words _ := congrArg words hp
      rw [words_append, words_load, branch, words_compute, words_nil] at hs
      omega
    obtain ⟨ht, hte⟩ := h.target hp hr hne
    rw [Machine.perform]
    dsimp only
    split
    · rw [hv]
      omega
    · rw [hnext]
      omega

/-! ## Whole runs -/

theorem contained_start (h : OnlyForward p) (hpc : m.pc = 0) :
    Contained p m ∧ m.pc.toNat + 2 ≤ p.executableCount := by
  have hp : p.instructions = [] ++ p.instructions := rfl
  refine ⟨contained_of_sealed hp (by rw [hpc]; rfl) h.isSealed, ?_⟩
  rw [hpc]
  exact h.isSealed.two_le_words

/-- Each word that is executed brings control forward by one word at least. -/
theorem pc_add_le_of_advance (h : OnlyForward p) {k : Nat} (hm : Contained p m)
    (he : m.pc.toNat + 2 ≤ p.executableCount)
    (ha : m.advance (Rom.link p.instructions) k = some m') :
    Contained p m' ∧ m.pc.toNat + k ≤ m'.pc.toNat ∧ m'.pc.toNat + 2 ≤ p.executableCount := by
  induction k generalizing m with
  | zero =>
    cases ha
    exact ⟨hm, Nat.le_refl _, he⟩
  | succ k ih =>
    obtain ⟨m₁, hh, hs, ha⟩ := Machine.advance_succ_cases ha
    obtain ⟨hlt, he₁⟩ := h.pc_lt_of_step hm he hh hs
    obtain ⟨hm', hle, he'⟩ := ih (hm.step h.isSealed h.count_le hs) he₁ ha
    exact ⟨hm', by omega, he'⟩

/-- As long as the machine is not halted, each step goes forward. -/
theorem pc_lt_of_after? (h : OnlyForward p) {k : Nat} {m₁ m₂ : Machine} (hpc : m.pc = 0)
    (ha : m.after? (Rom.link p.instructions) k = some m₁)
    (hs : m₁.step (Rom.link p.instructions) = (none, m₂)) (hr : m₂.state = .running) :
    m₁.pc.toNat < m₂.pc.toNat := by
  have hh : (Rom.link p.instructions).haltsAt m₁.pc = false := by
    refine Bool.eq_false_iff.2 fun hh => ?_
    rw [Machine.step_of_haltsAt hh] at hs
    cases hs
    cases hr
  obtain ha | ⟨_, -, m', -, hh', rfl⟩ := Machine.advance_or_halted ha
  · obtain ⟨hm, he⟩ := h.contained_start hpc
    obtain ⟨hm₁, -, he₁⟩ := h.pc_add_le_of_advance hm he ha
    exact (h.pc_lt_of_step hm₁ he₁ hh hs).1
  · rw [hh'] at hh
    cases hh

/-- A run whose limit is no less than the words in front of the last one meets a fault of memory,
or halts at the halt loop. -/
theorem ends_at_haltLabel (h : OnlyForward p) {limit : Nat} {x : Except MachineFault Nat × Machine}
    (hpc : m.pc = 0) (hsteps : m.steps = 0) (hl : p.executableCount ≤ limit + 1)
    (hx : Machine.Ends (Rom.link p.instructions) limit limit m x) :
    (∃ address pc, x.1 = .error (.memoryOutOfRange address pc)) ∨
      ∃ n, x.1 = .ok n ∧ n + 2 ≤ p.executableCount ∧ x.2.state = .halted ∧
        x.2.pc.toNat + 2 = p.executableCount ∧
        (Rom.link p.instructions).labelAddress? haltLabel = some x.2.pc.toNat := by
  obtain ⟨hm, he⟩ := h.contained_start hpc
  cases hx with
  | limit ha =>
    obtain ⟨-, hle, he'⟩ := h.pc_add_le_of_advance hm he ha
    omega
  | @loop k m' hk ha hh =>
    obtain ⟨hm', hle, -⟩ := h.pc_add_le_of_advance hm he ha
    have hend := h.at_end hm' hh
    obtain ⟨hw, hd⟩ := h.toNat_haltLabel
    have hc := (Machine.counted_of_advance ha).1
    refine .inr ⟨m'.steps, rfl, by omega, rfl, hend, ?_⟩
    rw [(Rom.labelAddress?_link_iff h.labels_nodup).2 hd]
    exact congrArg some (by dsimp only; omega)
  | fault hk ha hh hf =>
    obtain ⟨hm₁, -, -⟩ := h.pc_add_le_of_advance hm he ha
    have hlt := hm₁.pc_lt
    cases Machine.fails_of_step hf with
    | pastEnd hle =>
      rw [Rom.size_link] at hle
      exact absurd hlt (Nat.not_lt.2 hle)
    | noCell hop hu ha => exact .inl ⟨_, _, rfl⟩

end OnlyForward

variable {o : Options} {units : List SourceUnit} {p : Program}

/-- A program that only goes forward ends within its length, whatever is in memory and in the
registers at the start. Each step in front of the halt goes forward; and a run that may count as
many steps as there are words, less one, meets a fault of memory or halts at the halt loop, with two
steps less counted than there are words, at most. -/
theorem halts_of_goesForward (h : translate o units = .ok p) (hb : p.hasBootstrap = false)
    (hc : p.executableCount ≤ maxWord) (hf : GoesForward units) :
    ∃ r, Rom.load p.text = .ok r ∧
      ∀ m : Machine, m.pc = 0 → m.steps = 0 → m.state = .running →
        (∀ k m₁ m₂, m.after? r k = some m₁ → m₁.step r = (none, m₂) → m₂.state = .running →
          m₁.pc.toNat < m₂.pc.toNat) ∧
        ∀ limit, p.executableCount ≤ limit + 1 →
          (∃ address pc, (m.run r limit).1 = .error (.memoryOutOfRange address pc)) ∨
            ∃ n, (m.run r limit).1 = .ok n ∧ n + 2 ≤ p.executableCount ∧
              (m.run r limit).2.state = .halted ∧
              (m.run r limit).2.pc.toNat + 2 = p.executableCount ∧
              r.labelAddress? haltLabel = some (m.run r limit).2.pc.toNat := by
  have ht := translated_of_translate h
  have hp := ht.onlyForward hb hc hf
  refine ⟨Rom.link p.instructions, ht.load_text, ?_⟩
  intro m hpc hsteps hm
  refine ⟨fun k m₁ m₂ ha hs hr => hp.pc_lt_of_after? hpc ha hs hr, ?_⟩
  intro limit hl
  have he : Machine.Ends (Rom.link p.instructions) limit (limit - m.steps) m
      (m.run (Rom.link p.instructions) limit) := (Machine.run_eq_iff_ends hm).1 rfl
  rw [hsteps] at he
  exact hp.ends_at_haltLabel hpc hsteps hl he

/-- A function, a comparison, and two jumps over each other. -/
def steppingUnit : SourceUnit :=
  ⟨"Main", "function f 2\ngt\nif-goto A\ngoto B\nlabel A\nlabel B"⟩

/-- From a memory full of zeros the machine meets no fault and halts, within its 47 words. -/
theorem halts_of_steppingUnit :
    ∃ p r n, translate ⟨false, .auto⟩ [steppingUnit] = .ok p ∧ Rom.load p.text = .ok r ∧
      p.executableCount = 47 ∧ (Machine.initial.run r 46).1 = .ok n ∧ n + 2 ≤ 47 := by
  obtain ⟨p, hp⟩ : ∃ p, translate ⟨false, .auto⟩ [steppingUnit] = .ok p := ⟨_, rfl⟩
  have ht := translated_of_translate hp
  have hcount : p.executableCount = 47 := by
    rw [ht.executableCount_eq]
    decide
  have hok : (Machine.initial.run (Rom.link p.instructions) 46).1.isOk = true := by
    rw [ht.instructions]
    decide +kernel
  have hf : GoesForward [steppingUnit] := by decide +kernel
  obtain ⟨r, hr, h⟩ := halts_of_goesForward hp ht.hasBootstrap (by rw [hcount]; decide) hf
  obtain ⟨a, pc, hm⟩ | ⟨n, hn, hle, -⟩ := (h Machine.initial rfl rfl rfl).2 46 (Nat.le_of_eq hcount)
  · rw [← ht.eq_link_of_load hr, hm] at hok
    cases hok
  · exact ⟨p, r, n, hp, hr, hcount, hn, by omega⟩

end HackVM
