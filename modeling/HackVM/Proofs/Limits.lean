import HackVM.Proofs.Execution

/-!
# Runs and their limit

A run takes one step after another until the machine halts, a step is a fault, or the limit of
counted steps is reached. `Ends` says which of the three it is and where. Since the words that are
executed in front of the end do not depend on the limit, a run can be broken off at one limit and
taken up again with another.

The limit is looked at before the word. So a machine that comes to a halt loop with the last step
that the limit allows is not halted any more, though halting costs no counted step.
-/

namespace HackVM

open Assembly

namespace Machine

variable {r : Rom} {m m' : Machine}

/-! ## Steps -/

theorem steps_of_execute (h : m.execute r = (none, m')) : m'.steps = m.steps + 1 := by
  obtain ⟨op, -, rfl⟩ := eq_perform_of_execute h
  exact perform_steps _ op

/-- The limit belongs to runs. -/
theorem step_ne_stepLimit (r : Rom) (m : Machine) (limit : Nat) :
    (m.step r).1 ≠ some (.stepLimit limit) := by
  rw [step, execute]
  split
  · simp
  · split
    · simp
    · dsimp only
      split
      · simp
      · simp

theorem advance_of_step (hh : r.haltsAt m.pc = false) (hs : m.step r = (none, m')) (k : Nat) :
    m.advance r (k + 1) = m'.advance r k := by
  rw [advance, hh, hs]
  rfl

theorem after?_of_step (hs : m.step r = (none, m')) (k : Nat) :
    m.after? r (k + 1) = m'.after? r k := by
  rw [after?, hs]

theorem advance_succ_cases {k : Nat} (h : m.advance r (k + 1) = some m') :
    ∃ m₁, r.haltsAt m.pc = false ∧ m.step r = (none, m₁) ∧ m₁.advance r k = some m' := by
  rw [advance] at h
  split at h
  · cases h
  · rename_i hh
    split at h
    · rename_i m₁ hs
      exact ⟨m₁, Bool.eq_false_iff.2 hh, hs, h⟩
    · cases h

/-- Each word that is executed is counted, and the machine is in the same state behind it. -/
theorem counted_of_advance {k : Nat} (h : m.advance r k = some m') :
    m'.steps = m.steps + k ∧ m'.state = m.state := by
  induction k generalizing m with
  | zero =>
    cases h
    exact ⟨rfl, rfl⟩
  | succ k ih =>
    obtain ⟨m₁, hh, hs, ha⟩ := advance_succ_cases h
    rw [step_of_not_haltsAt hh] at hs
    obtain ⟨hc, hm⟩ := ih ha
    refine ⟨?_, hm.trans (state_of_execute hs)⟩
    rw [hc, steps_of_execute hs]
    omega

/-- Words executed one after the other are as many steps. -/
theorem after?_add_of_advance {k : Nat} (h : m.advance r k = some m') (n : Nat) :
    m.after? r (k + n) = m'.after? r n := by
  induction k generalizing m with
  | zero =>
    cases h
    rw [Nat.zero_add]
  | succ k ih =>
    obtain ⟨m₁, -, hs, ha⟩ := advance_succ_cases h
    rw [Nat.succ_add, after?_of_step hs, ih ha]

theorem after?_of_advance {k : Nat} (h : m.advance r k = some m') : m.after? r k = some m' :=
  after?_add_of_advance h 0

/-- A halted machine stays at its loop. -/
theorem after?_of_haltsAt (h : r.haltsAt m.pc = true) (hm : m.state = .halted) (k : Nat) :
    m.after? r k = some m := by
  induction k with
  | zero => rfl
  | succ k ih =>
    have hs : m.step r = (none, m) := by
      rw [step_of_haltsAt h, ← hm]
    rw [after?_of_step hs, ih]

/-- Steps without a fault execute one word each, up to a halt loop if there is one on the way. -/
theorem advance_or_halted {k : Nat} (h : m.after? r k = some m') :
    m.advance r k = some m' ∨ ∃ j < k, ∃ m₁, m.advance r j = some m₁ ∧ r.haltsAt m₁.pc = true ∧
      m' = { m₁ with state := .halted } := by
  induction k generalizing m with
  | zero => exact .inl h
  | succ k ih =>
    cases hh : r.haltsAt m.pc with
    | true =>
      right
      refine ⟨0, Nat.succ_pos k, m, rfl, hh, ?_⟩
      rw [after?_of_step (step_of_haltsAt hh),
        after?_of_haltsAt (m := { m with state := .halted }) hh rfl] at h
      exact (Option.some.inj h).symm
    | false =>
      rw [after?] at h
      split at h
      · rename_i m₂ hs
        obtain ha | ⟨j, hj, m₁, ha, hl, hm⟩ := ih h
        · exact .inl ((advance_of_step hh hs k).trans ha)
        · exact .inr ⟨j + 1, Nat.succ_lt_succ hj, m₁, (advance_of_step hh hs j).trans ha, hl, hm⟩
      · cases h

/-! ## How a run ends -/

/-- What a run from `m` comes to when `budget` steps are left before the limit. -/
inductive Ends (r : Rom) (limit budget : Nat) (m : Machine) :
    Except MachineFault Nat × Machine → Prop
  | limit {m' : Machine} :
    m.advance r budget = some m' → Ends r limit budget m (.error (.stepLimit limit), m')
  | loop {k : Nat} {m' : Machine} :
    k < budget → m.advance r k = some m' → r.haltsAt m'.pc = true →
      Ends r limit budget m (.ok m'.steps, { m' with state := .halted })
  | fault {k : Nat} {m₁ m' : Machine} {fault : MachineFault} :
    k < budget → m.advance r k = some m₁ → r.haltsAt m₁.pc = false →
      m₁.step r = (some fault, m') → Ends r limit budget m (.error fault, m')

variable {limit budget : Nat} {x : Except MachineFault Nat × Machine}

theorem Ends.of_step (h : Ends r limit budget m' x) (hh : r.haltsAt m.pc = false)
    (hs : m.step r = (none, m')) : Ends r limit (budget + 1) m x := by
  cases h with
  | limit ha => exact .limit ((advance_of_step hh hs _).trans ha)
  | loop hk ha hl => exact .loop (Nat.succ_lt_succ hk) ((advance_of_step hh hs _).trans ha) hl
  | fault hk ha hl hf =>
    exact .fault (Nat.succ_lt_succ hk) ((advance_of_step hh hs _).trans ha) hl hf

theorem runWithin_of_step (hm : m.state = .running) (hs : m.step r = (none, m')) :
    runWithin r limit (budget + 1) m = runWithin r limit budget m' := by
  rw [runWithin.eq_def, hm]
  simp only [hs]

theorem runWithin_of_fault {fault : MachineFault} (hm : m.state = .running)
    (hs : m.step r = (some fault, m')) :
    runWithin r limit (budget + 1) m = (.error fault, m') := by
  rw [runWithin.eq_def, hm]
  simp only [hs]

theorem ends_runWithin (hm : m.state = .running) :
    Ends r limit budget m (m.runWithin r limit budget) := by
  induction budget generalizing m with
  | zero =>
    rw [runWithin_zero hm]
    exact .limit rfl
  | succ budget ih =>
    cases hh : r.haltsAt m.pc with
    | true =>
      rw [runWithin_of_haltsAt hm hh]
      exact .loop (Nat.succ_pos budget) rfl hh
    | false =>
      cases hs : m.step r with
      | mk fault? m' =>
        cases fault? with
        | some fault =>
          rw [runWithin_of_fault hm hs]
          exact .fault (Nat.succ_pos budget) rfl hh hs
        | none =>
          rw [runWithin_of_step hm hs]
          have hm' : m'.state = .running := by
            rw [step_of_not_haltsAt hh] at hs
            exact (state_of_execute hs).trans hm
          exact (ih hm').of_step hh hs

/-- A run with budget left behind the words goes on from there. -/
theorem exists_runWithin_of_advance {k : Nat} (hm : m.state = .running)
    (ha : m.advance r k = some m') (hk : k < budget) :
    ∃ rest, m.runWithin r limit budget = m'.runWithin r limit (rest + 1) ∧ m'.state = .running := by
  obtain ⟨rest, rfl⟩ := Nat.exists_eq_add_of_lt hk
  have hb : k + rest + 1 = rest + 1 + k := by omega
  rw [hb]
  exact ⟨rest, runWithin_of_advance hm ha (rest + 1)⟩

/-- No other end is one of the run. -/
theorem Ends.eq_runWithin (h : Ends r limit budget m x) (hm : m.state = .running) :
    x = m.runWithin r limit budget := by
  cases h with
  | limit ha =>
    obtain ⟨hw, hr⟩ := runWithin_of_advance hm ha 0
    rw [← Nat.zero_add budget, hw, runWithin_zero hr]
  | loop hk ha hl =>
    obtain ⟨rest, hw, hr⟩ := exists_runWithin_of_advance hm ha hk
    rw [hw, runWithin_of_haltsAt hr hl]
  | fault hk ha hl hf =>
    obtain ⟨rest, hw, hr⟩ := exists_runWithin_of_advance hm ha hk
    rw [hw, runWithin_of_fault hr hf]

theorem run_eq_iff_ends (hm : m.state = .running) :
    m.run r limit = x ↔ Ends r limit (limit - m.steps) m x := by
  constructor
  · rintro rfl
    exact ends_runWithin hm
  · intro h
    exact (h.eq_runWithin hm).symm

/-- The limit is answered only where no budget is left. -/
theorem Ends.advance_of_stepLimit {l : Nat} (h : Ends r limit budget m x)
    (hx : x.1 = .error (.stepLimit l)) : l = limit ∧ m.advance r budget = some x.2 := by
  cases h with
  | limit ha =>
    cases hx
    exact ⟨rfl, ha⟩
  | loop hk ha hl => cases hx
  | @fault k m₁ m' fault hk ha hl hf =>
    have hs := step_ne_stepLimit r m₁ l
    rw [hf] at hs
    exact absurd (congrArg some (Except.error.inj hx)) hs

/-! ## What the limit means -/

/-- By steps without a fault the machine comes to have counted `n` steps. -/
def CountsTo (r : Rom) (m : Machine) (n : Nat) : Prop :=
  ∃ k m', m.after? r k = some m' ∧ m'.steps = n

/-- By steps without a fault the machine comes to a halt loop, with `n` steps counted there. -/
def ComesToLoop (r : Rom) (m : Machine) (n : Nat) : Prop :=
  ∃ k m', m.after? r k = some m' ∧ r.haltsAt m'.pc = true ∧ m'.steps = n

theorem advance_of_le {j k : Nat} (h : m.advance r k = some m') (hj : j ≤ k) :
    ∃ m₁, m.advance r j = some m₁ := by
  obtain ⟨rest, rfl⟩ := Nat.exists_eq_add_of_le hj
  rw [advance_add] at h
  cases ha : m.advance r j with
  | none =>
    rw [ha] at h
    cases h
  | some m₁ => exact ⟨m₁, rfl⟩

/-- A machine that comes to a count has executed as many words as it has counted. -/
theorem CountsTo.advance {n : Nat} (h : m.CountsTo r n) :
    ∃ m₁, m.advance r (n - m.steps) = some m₁ := by
  obtain ⟨k, m', hk, rfl⟩ := h
  obtain ha | ⟨j, -, m₁, ha, -, rfl⟩ := advance_or_halted hk
  · rw [(counted_of_advance ha).1, Nat.add_sub_cancel_left]
    exact ⟨m', ha⟩
  · dsimp only
    rw [(counted_of_advance ha).1, Nat.add_sub_cancel_left]
    exact ⟨m₁, ha⟩

theorem ComesToLoop.advance {n : Nat} (h : m.ComesToLoop r n) :
    ∃ k m₁, m.advance r k = some m₁ ∧ r.haltsAt m₁.pc = true ∧ n = m.steps + k ∧ m₁.steps = n := by
  obtain ⟨k, m', hk, hl, rfl⟩ := h
  obtain ha | ⟨j, -, m₁, ha, -, rfl⟩ := advance_or_halted hk
  · exact ⟨k, m', ha, hl, (counted_of_advance ha).1, rfl⟩
  · exact ⟨j, m₁, ha, hl, (counted_of_advance ha).1, rfl⟩

/-- A run ends at its limit just if the machine can count that many steps. -/
theorem run_eq_stepLimit_iff (hm : m.state = .running) (hl : m.steps ≤ limit) :
    (m.run r limit).1 = .error (.stepLimit limit) ↔ m.CountsTo r limit := by
  have he : Ends r limit (limit - m.steps) m (m.run r limit) := (run_eq_iff_ends hm).1 rfl
  constructor
  · intro h
    obtain ⟨-, ha⟩ := he.advance_of_stepLimit h
    refine ⟨_, _, after?_of_advance ha, ?_⟩
    rw [(counted_of_advance ha).1]
    omega
  · intro h
    obtain ⟨m₁, ha⟩ := h.advance
    rw [(run_eq_iff_ends hm).2 (.limit ha)]

/-- What a run with a limit answers. It answers the limit just if the machine can count that many
steps without a fault. A halt loop that the machine comes to is found if fewer steps than the
limit are counted there; with as many as the limit it is not. -/
theorem run_at_limit (hm : m.state = .running) (hl : m.steps ≤ limit) :
    ((m.run r limit).1 = .error (.stepLimit limit) ↔ m.CountsTo r limit) ∧
      ∀ n, m.ComesToLoop r n →
        (n < limit → (m.run r limit).1 = .ok n ∧ (m.run r limit).2.state = .halted ∧
          r.haltsAt (m.run r limit).2.pc = true) ∧
        (limit ≤ n → (m.run r limit).1 = .error (.stepLimit limit) ∧
          (m.run r limit).2.state = .running ∧ (m.run r limit).2.steps = limit) := by
  refine ⟨run_eq_stepLimit_iff hm hl, ?_⟩
  intro n hn
  obtain ⟨k, m₁, ha, hh, rfl, hc⟩ := hn.advance
  constructor
  · intro hlt
    have hk : k < limit - m.steps := by omega
    rw [(run_eq_iff_ends hm).2 (.loop hk ha hh)]
    exact ⟨congrArg Except.ok hc, rfl, hh⟩
  · intro hle
    obtain ⟨m₂, ha₂⟩ := advance_of_le ha (show limit - m.steps ≤ k by omega)
    obtain ⟨hc₂, hs₂⟩ := counted_of_advance ha₂
    rw [(run_eq_iff_ends hm).2 (.limit ha₂)]
    refine ⟨rfl, hs₂.trans hm, ?_⟩
    dsimp only
    omega

def shortProgram : Rom :=
  ⟨#[.load 1, .compute (some .d) (.y .a) none, .load 2, .compute none .zero (some .always)],
    [("END", 2)], []⟩

theorem comesToLoop_shortProgram : initial.ComesToLoop shortProgram 2 := ⟨2, _, rfl, rfl, rfl⟩

theorem run_at_limit_shortProgram :
    (initial.run shortProgram 3).1 = .ok 2 ∧
      (initial.run shortProgram 2).1 = .error (.stepLimit 2) := by
  have hr : initial.state = .running := rfl
  have h₃ : initial.steps ≤ 3 := by decide
  have h₂ : initial.steps ≤ 2 := by decide
  exact ⟨(((run_at_limit hr h₃).2 2 comesToLoop_shortProgram).1 (by decide)).1,
    (((run_at_limit hr h₂).2 2 comesToLoop_shortProgram).2 (by decide)).1⟩

/-- The halt loop is reached with two steps, and a run with a limit of two says that it is not. -/
theorem stepLimit_at_loop :
    Rom.load "@1\nD=A\n(END)\n@END\n0;JMP\n" = .ok shortProgram ∧
      shortProgram.size ≤ maxWord ∧ initial.state = .running ∧ initial.steps ≤ 2 ∧
      initial.ComesToLoop shortProgram 2 ∧
      (initial.run shortProgram 2).1 = .error (.stepLimit 2) ∧
      MachineFault.message (.stepLimit 2) = "no halt loop reached within 2 steps" :=
  ⟨rfl, by decide, rfl, by decide, comesToLoop_shortProgram, rfl, by decide⟩

/-! ## Runs in pieces -/

/-- A result and a machine that steps from `m` lead to, one after another: the machine halts, it
is left running with a limit counted, or the last step is a fault. -/
inductive Stepped (r : Rom) (m : Machine) : Except MachineFault Nat × Machine → Prop
  | halted {n : Nat} {m' : Machine} :
    m.after? r n = some m' → m'.state = .halted → Stepped r m (.ok m'.steps, m')
  | limit {n limit : Nat} {m' : Machine} :
    m.after? r n = some m' → m'.state = .running → limit ≤ m'.steps →
      Stepped r m (.error (.stepLimit limit), m')
  | fault {n : Nat} {m₁ m' : Machine} {fault : MachineFault} :
    m.after? r n = some m₁ → m₁.state = .running → m₁.step r = (some fault, m') →
      Stepped r m (.error fault, m')

/-- A halted machine is the result of a last step that leaves its count. -/
theorem after?_succ_of_haltsAt {k : Nat} (h : m.advance r k = some m')
    (hh : r.haltsAt m'.pc = true) :
    m.after? r (k + 1) = some { m' with state := .halted } := by
  rw [after?_add_of_advance h 1, after?_of_step (step_of_haltsAt hh)]
  rfl

theorem Ends.stepped (h : Ends r limit (limit - m.steps) m x) (hm : m.state = .running) :
    Stepped r m x := by
  cases h with
  | limit ha =>
    obtain ⟨hc, hs⟩ := counted_of_advance ha
    exact .limit (after?_of_advance ha) (hs.trans hm) (by omega)
  | loop hk ha hh => exact .halted (after?_succ_of_haltsAt ha hh) rfl
  | fault hk ha hh hf =>
    exact .fault (after?_of_advance ha) ((counted_of_advance ha).2.trans hm) hf

theorem stepped_run (r : Rom) (m : Machine) (limit : Nat) : Stepped r m (m.run r limit) := by
  cases hm : m.state with
  | halted =>
    rw [run_of_halted hm]
    exact .halted (n := 0) rfl hm
  | running => exact ((run_eq_iff_ends hm).1 rfl).stepped hm

/-- A fault is counted once at most. -/
theorem steps_of_fault {fault : MachineFault} (h : m.step r = (some fault, m')) :
    m'.steps ≤ m.steps + 1 := by
  rw [step_of_not_haltsAt (haltsAt_of_fault h)] at h
  cases hop : r.code[m.pc.toNat]? with
  | none =>
    rw [execute, hop] at h
    cases h
    exact Nat.le_succ _
  | some op =>
    have hc := execute_steps hop
    rw [h] at hc
    exact Nat.le_of_eq hc

theorem Ends.steps_le (h : Ends r limit (limit - m.steps) m x) :
    x.2.steps ≤ max limit m.steps := by
  cases h with
  | limit ha =>
    rw [(counted_of_advance ha).1]
    omega
  | loop hk ha hh =>
    dsimp only
    rw [(counted_of_advance ha).1]
    omega
  | fault hk ha hh hf =>
    have hc := (counted_of_advance ha).1
    have hs := steps_of_fault hf
    dsimp only
    omega

theorem steps_run_le (r : Rom) (m : Machine) (limit : Nat) :
    (m.run r limit).2.steps ≤ max limit m.steps := by
  cases hm : m.state with
  | halted =>
    rw [run_of_halted hm]
    exact Nat.le_max_right _ _
  | running => exact ((run_eq_iff_ends hm).1 rfl).steps_le

/-- An end in front of the limit is also the end for any larger limit. -/
theorem Ends.of_le {j k : Nat} (h : Ends r j (j - m.steps) m x) (hjk : j ≤ k)
    (hx : ∀ l, x.1 ≠ .error (.stepLimit l)) : Ends r k (k - m.steps) m x := by
  cases h with
  | limit ha => exact absurd rfl (hx j)
  | loop hk ha hh => exact .loop (by omega) ha hh
  | fault hk ha hh hf => exact .fault (by omega) ha hh hf

/-- Breaking a run off at a limit and taking it up with another one is the run with the other. -/
theorem Ends.run_of_stepLimit {j k l : Nat} (h : Ends r j (j - m.steps) m x) (hjk : j ≤ k)
    (hm : m.state = .running) (hx : x.1 = .error (.stepLimit l)) :
    l = j ∧ x.2.run r k = m.run r k := by
  obtain ⟨rfl, ha⟩ := h.advance_of_stepLimit hx
  refine ⟨rfl, ?_⟩
  have hc := (counted_of_advance ha).1
  obtain hb | hz : k - m.steps = k - x.2.steps + (l - m.steps) ∨ l - m.steps = 0 := by omega
  · rw [run, run, hb, (runWithin_of_advance hm ha (k - x.2.steps)).1]
  · rw [hz] at ha
    rw [← Option.some.inj ha]

/-- Running in pieces is running at once. A run that ends at its limit is taken up by one with a
larger limit, with the same result and the same machine as that one alone; a run that ends in any
other way ends so with every larger limit. The machine that is left has come about by steps one
after another, and has counted no more than the limit, or than before. -/
theorem run_of_run {j k : Nat} (h : j ≤ k) :
    (∀ l, (m.run r j).1 = .error (.stepLimit l) →
        l = j ∧ (m.run r j).2.run r k = m.run r k) ∧
      ((∀ l, (m.run r j).1 ≠ .error (.stepLimit l)) → m.run r k = m.run r j) ∧
      Stepped r m (m.run r j) ∧ (m.run r j).2.steps ≤ max j m.steps := by
  refine ⟨?_, ?_, stepped_run r m j, steps_run_le r m j⟩
  · intro l hl
    cases hm : m.state with
    | halted =>
      rw [run_of_halted hm] at hl
      cases hl
    | running => exact ((run_eq_iff_ends hm).1 rfl).run_of_stepLimit h hm hl
  · intro hl
    cases hm : m.state with
    | halted => rw [run_of_halted hm, run_of_halted hm]
    | running => exact (run_eq_iff_ends hm).2 (((run_eq_iff_ends hm).1 rfl).of_le h hl)

theorem run_of_run_shortProgram :
    (initial.run shortProgram 2).1 = .error (.stepLimit 2) ∧
      (initial.run shortProgram 2).2.run shortProgram 5 = initial.run shortProgram 5 ∧
      initial.run shortProgram 5 = initial.run shortProgram 3 := by
  have h₂ : (initial.run shortProgram 2).1 = .error (.stepLimit 2) := rfl
  refine ⟨h₂, ((run_of_run (by decide)).1 2 h₂).2, (run_of_run (by decide)).2.1 ?_⟩
  intro l hl
  have h₃ : (initial.run shortProgram 3).1 = .ok 2 := rfl
  rw [h₃] at hl
  cases hl

end Machine

end HackVM
