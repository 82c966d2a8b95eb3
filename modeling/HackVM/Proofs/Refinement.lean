import HackVM.Proofs.Simulation

/-!
# Translation preserves meaning

A run of the machine on a translated program is a run of the stack machine on its source, piece
by piece, for as long as the guards hold. The machine halts exactly where the stack machine is
at rest, and meets no fault before.
-/

namespace HackVM

open Assembly Instruction Sequence

/-! ## Rest -/

namespace Translated

variable {o : Options} {units : List SourceUnit} {p : Program}

/-- Where the stack machine is at rest, there is a halt loop. -/
theorem haltsAt_of_rests (h : Translated o units p) (ht : TargetsDeclared units)
    {s : StackState}
    (hs : (stackMachine o units (Rom.link p.instructions)).rests s = true) :
    (Rom.link p.instructions).haltsAt s.next = true := by
  -- a jump to the address at which it stands
  have jump : ∀ {name : String}, (Rom.link p.instructions).HoldsAt s.next.toNat (jumpTo name) →
      (Rom.link p.instructions).value name = s.next →
      (Rom.link p.instructions).haltsAt s.next = true := by
    intro name hh hv
    have h₁ := hh.1
    rw [show (Rom.link p.instructions).number (.symbol name) = s.next from hv] at h₁
    have h₂ : (Rom.link p.instructions).code[s.next.toNat + 1]? =
        some (.compute none .zero (some .always)) := hh.2.1
    rw [Rom.haltsAt, h₁, h₂]
    exact beq_self_eq_true s.next
  rw [StackMachine.rests] at hs
  split at hs
  · rename_i hp
    obtain ⟨hq, -⟩ := placed_of_pieceAt? hp
    have hh := h.holdsAt hq
    refine jump hh.2 ?_
    rw [Rom.value_of_label lookup_predefined_haltLabel hh.1, BitVec.ofNat_toNat,
      BitVec.setWidth_eq]
  · rename_i site n hp
    obtain ⟨hq, -⟩ := placed_of_pieceAt? hp
    split at hs
    · rename_i name hcmd
      have hx : site.command.expand site.place n =
          .ok (jumpTo (site.place.scope.qualify name)) := by
        rw [hcmd]
        rfl
      have hd := ht.label site (mem_sites_of_mem_pieces hq.mem) name (.inl hcmd)
      refine jump (h.holdsAt_command hq hx).1 ?_
      rw [h.value_target hd, eq_of_beq hs, BitVec.ofNat_toNat, BitVec.setWidth_eq]
    · cases hs
  · cases hs

end Translated

/-! ## Machine and stack machine side by side -/

/-- The machine is about to execute what the stack machine is about to carry out. -/
structure Machine.Shows (m : Machine) (s : StackState) : Prop where
  memory : m.memory = s.memory
  pc : m.pc = s.next
  state : m.state = .running

/-- From a machine that shows a state, the machine gets on to every state that the stack machine
can be followed to. -/
theorem Machine.Shows.advance {r : Rom} {m : Machine} {s s' : StackState} (h : m.Shows s)
    (hr : Reaches r s s') :
    ∃ n m', 0 < n ∧ m.advance r n = some m' ∧ m'.Shows s' ∧ m'.steps = m.steps + n := by
  obtain ⟨n, a, d, hn, hl⟩ := hr m.a m.d
  refine ⟨n, (⟨s'.memory, a, d⟩ : Core).toMachine s'.next.toNat (m.steps + n), hn, ?_,
    ⟨rfl, ?_, rfl⟩, rfl⟩
  · have hm : m = (⟨s.memory, m.a, m.d⟩ : Core).toMachine s.next.toNat m.steps := by
      rw [← h.memory, ← h.pc]
      exact Machine.eq_toMachine h.state
    have ha := hl m.steps
    rw [← hm] at ha
    exact ha
  · show BitVec.ofNat 16 s'.next.toNat = s'.next
    rw [BitVec.ofNat_toNat, BitVec.setWidth_eq]

namespace Translated

variable {o : Options} {units : List SourceUnit} {p : Program}

/-- Every step of the stack machine is followed by the machine, at rest without a step. -/
theorem advance_of_step (h : Translated o units p) (ht : TargetsDeclared units)
    (hc : p.executableCount ≤ maxWord) {m : Machine} {s t : StackState} (hm : m.Shows s)
    (he : pieceAt? (pieces o units) s.next.toNat = some .bootstrap → EntryPointDeclared o units)
    (hs : (stackMachine o units (Rom.link p.instructions)).step s = some t) :
    ∃ n m', m.advance (Rom.link p.instructions) n = some m' ∧ m'.Shows t ∧
      m'.steps = m.steps + n := by
  cases hr : (stackMachine o units (Rom.link p.instructions)).rests s with
  | true =>
    rw [StackMachine.step_of_rests _ hr] at hs
    cases hs
    exact ⟨0, m, rfl, hm, rfl⟩
  | false =>
    obtain ⟨n, m', -, ha, hm', hn⟩ := hm.advance (h.reaches_of_step ht hc he hs hr)
    exact ⟨n, m', ha, hm', hn⟩

/-- Every run of the stack machine is followed by the machine. -/
theorem advance_of_steps (h : Translated o units p) (ht : TargetsDeclared units)
    (he : EntryPointDeclared o units) (hc : p.executableCount ≤ maxWord) {m : Machine}
    {s t : StackState} (hm : m.Shows s) {k : Nat}
    (hs : (stackMachine o units (Rom.link p.instructions)).steps k s = some t) :
    ∃ n m', m.advance (Rom.link p.instructions) n = some m' ∧ m'.Shows t ∧
      m'.steps = m.steps + n := by
  induction k generalizing t with
  | zero =>
    cases hs
    exact ⟨0, m, rfl, hm, rfl⟩
  | succ k ih =>
    rw [StackMachine.steps_succ] at hs
    obtain ⟨u, hu, hstep⟩ := Option.bind_eq_some_iff.1 hs
    obtain ⟨n, m₁, ha, hm₁, hn⟩ := ih hu
    obtain ⟨l, m₂, hb, hm₂, hl⟩ := h.advance_of_step ht hc hm₁ (fun _ => he) hstep
    refine ⟨n + l, m₂, ?_, hm₂, by omega⟩
    rw [Machine.advance_add, ha, Option.bind_some, hb]

/-- At rest a run with some budget left halts. -/
theorem runWithin_of_rests (h : Translated o units p) (ht : TargetsDeclared units)
    {m : Machine} {s : StackState} (hm : m.Shows s)
    (hs : (stackMachine o units (Rom.link p.instructions)).rests s = true) (limit budget : Nat) :
    m.runWithin (Rom.link p.instructions) limit (budget + 1) =
      (.ok m.steps, { m with state := .halted }) := by
  have hh := h.haltsAt_of_rests ht hs
  rw [← hm.pc] at hh
  exact Machine.runWithin_of_haltsAt hm.state hh

end Translated

/-- How a run ends that starts with the stack machine in `s` and meets no failing guard: at the
limit of steps, or halted where the stack machine comes to rest. -/
def EndsAtRest (S : StackMachine) (s : StackState) (limit : Nat)
    (result : Except MachineFault Nat × Machine) : Prop :=
  result.1 = .error (.stepLimit limit) ∨
    ∃ k t, S.steps k s = some t ∧ S.rests t = true ∧ result.1 = .ok result.2.steps ∧
      result.2.state = .halted ∧ result.2.memory = t.memory ∧ result.2.pc = t.next

/-- A run that never meets a failing guard never meets a fault. -/
theorem Translated.endsAtRest_runWithin {o : Options} {units : List SourceUnit} {p : Program}
    (h : Translated o units p) (ht : TargetsDeclared units) (he : EntryPointDeclared o units)
    (hc : p.executableCount ≤ maxWord) (limit : Nat) {budget : Nat} {m : Machine}
    {s : StackState} (hm : m.Shows s)
    (hs : ∀ k, ((stackMachine o units (Rom.link p.instructions)).steps k s).isSome) :
    EndsAtRest (stackMachine o units (Rom.link p.instructions)) s limit
      (m.runWithin (Rom.link p.instructions) limit budget) := by
  induction budget using Nat.strongRecOn generalizing m s with
  | _ budget ih =>
    cases budget with
    | zero =>
      left
      rw [Machine.runWithin_zero hm.state]
    | succ budget =>
      cases hr : (stackMachine o units (Rom.link p.instructions)).rests s with
      | true =>
        right
        rw [h.runWithin_of_rests ht hm hr]
        exact ⟨0, s, rfl, hr, rfl, rfl, hm.memory, hm.pc⟩
      | false =>
        obtain ⟨t, hstep⟩ := Option.isSome_iff_exists.1 (hs 1)
        have hstep : (stackMachine o units (Rom.link p.instructions)).step s = some t := by
          rw [← hstep, StackMachine.steps]
          exact (Option.bind_fun_some _).symm
        obtain ⟨n, m', hn, ha, hm', -⟩ :=
          hm.advance (h.reaches_of_step ht hc (fun _ => he) hstep hr)
        have hst : ∀ k, (stackMachine o units (Rom.link p.instructions)).steps (k + 1) s =
            (stackMachine o units (Rom.link p.instructions)).steps k t := by
          intro k
          rw [StackMachine.steps, hstep, Option.bind_some]
        by_cases hb : budget + 1 < n
        · left
          exact Machine.runWithin_of_advance_of_lt hm.state ha hb
        · obtain ⟨b, hb⟩ := Nat.exists_eq_add_of_le (Nat.le_of_not_lt hb)
          rw [hb, Nat.add_comm n b, (Machine.runWithin_of_advance hm.state ha b).1]
          have hi := ih b (by omega) hm' (fun k => hst k ▸ hs (k + 1))
          rcases hi with hl | ⟨k, u, hu, hx⟩
          · exact .inl hl
          · exact .inr ⟨k + 1, u, (hst k).trans hu, hx⟩

/-- Translation preserves meaning over whole runs. From any machine that is about to execute a
piece, each run of the stack machine on the source is followed, to the same memory and the same
place; where the stack machine comes to rest, a run with a sufficient limit halts. And if no
guard ever fails, every run either comes to its limit or halts at such a place. -/
theorem run_of_translated {o : Options} {units : List SourceUnit} {p : Program} {r : Rom}
    (h : translate o units = .ok p) (hc : p.executableCount ≤ maxWord)
    (hr : Rom.load p.text = .ok r) (ht : TargetsDeclared units) (he : EntryPointDeclared o units)
    {m : Machine} (hm : m.state = .running) :
    (∀ k t, (stackMachine o units r).steps k ⟨m.memory, m.pc⟩ = some t →
      ∃ n m', m.advance r n = some m' ∧ m'.memory = t.memory ∧ m'.pc = t.next ∧
        m'.state = .running ∧ m'.steps = m.steps + n ∧
        ((stackMachine o units r).rests t = true → ∀ limit, m'.steps < limit →
          m.run r limit = (.ok m'.steps, { m' with state := .halted }))) ∧
    ((∀ k, ((stackMachine o units r).steps k ⟨m.memory, m.pc⟩).isSome) → ∀ limit,
      EndsAtRest (stackMachine o units r) ⟨m.memory, m.pc⟩ limit (m.run r limit)) := by
  have hx := translated_of_translate h
  obtain rfl := hx.eq_link_of_load hr
  have hs : m.Shows ⟨m.memory, m.pc⟩ := ⟨rfl, rfl, hm⟩
  constructor
  · intro k t hk
    obtain ⟨n, m', ha, hm', hn⟩ := hx.advance_of_steps ht he hc hs hk
    refine ⟨n, m', ha, hm'.memory, hm'.pc, hm'.state, hn, ?_⟩
    intro hrest limit hl
    obtain ⟨b, hb⟩ := Nat.exists_eq_add_of_lt hl
    have hw : limit - m.steps = b + 1 + n := by omega
    rw [Machine.run, hw, (Machine.runWithin_of_advance hm ha _).1]
    exact hx.runWithin_of_rests ht hm' hrest limit b
  · intro hk limit
    exact hx.endsAtRest_runWithin ht he hc limit hs hk

/-- A unit whose entry point calls a function and then goes in a loop. -/
def callingUnit : SourceUnit :=
  ⟨"Main", "function Sys.init 0\ncall Main.f 0\nlabel L\ngoto L\n" ++
    "function Main.f 0\npush constant 7\nreturn"⟩

theorem sites_callingUnit : sites [callingUnit] =
    [⟨⟨"Main", ⟨"Sys.init"⟩⟩, "function Sys.init 0", .function "Sys.init" 0⟩,
      ⟨⟨"Main", ⟨"Sys.init"⟩⟩, "call Main.f 0", .call "Main.f" 0⟩,
      ⟨⟨"Main", ⟨"Sys.init"⟩⟩, "label L", .label "L"⟩,
      ⟨⟨"Main", ⟨"Sys.init"⟩⟩, "goto L", .goto "L"⟩,
      ⟨⟨"Main", ⟨"Main.f"⟩⟩, "function Main.f 0", .function "Main.f" 0⟩,
      ⟨⟨"Main", ⟨"Main.f"⟩⟩, "push constant 7", .push .constant 7⟩,
      ⟨⟨"Main", ⟨"Main.f"⟩⟩, "return", .ret⟩] := by decide +kernel

theorem pieces_callingUnit : pieces ⟨false, .always⟩ [callingUnit] =
    [.bootstrap,
      .command ⟨⟨"Main", ⟨"Sys.init"⟩⟩, "function Sys.init 0", .function "Sys.init" 0⟩ ⟨1, 0⟩,
      .command ⟨⟨"Main", ⟨"Sys.init"⟩⟩, "call Main.f 0", .call "Main.f" 0⟩ ⟨1, 0⟩,
      .command ⟨⟨"Main", ⟨"Sys.init"⟩⟩, "label L", .label "L"⟩ ⟨2, 0⟩,
      .command ⟨⟨"Main", ⟨"Sys.init"⟩⟩, "goto L", .goto "L"⟩ ⟨2, 0⟩,
      .command ⟨⟨"Main", ⟨"Main.f"⟩⟩, "function Main.f 0", .function "Main.f" 0⟩ ⟨2, 0⟩,
      .command ⟨⟨"Main", ⟨"Main.f"⟩⟩, "push constant 7", .push .constant 7⟩ ⟨2, 0⟩,
      .command ⟨⟨"Main", ⟨"Main.f"⟩⟩, "return", .ret⟩ ⟨2, 0⟩] := by
  rw [pieces, sites_callingUnit]
  rfl

theorem translate_callingUnit : ∃ p, translate ⟨false, .always⟩ [callingUnit] = .ok p ∧
    p.executableCount ≤ maxWord := by
  obtain ⟨p, hp⟩ : ∃ p, translate ⟨false, .always⟩ [callingUnit] = .ok p := ⟨_, rfl⟩
  refine ⟨p, hp, ?_⟩
  rw [(translated_of_translate hp).executableCount_eq, pieces_callingUnit]
  decide

theorem targetsDeclared_callingUnit : TargetsDeclared [callingUnit] := by decide +kernel

theorem entryPointDeclared_callingUnit : EntryPointDeclared ⟨false, .always⟩ [callingUnit] := by
  intro _
  simp [sites_callingUnit, MemoryMap.entryPoint]

/-- The machine starts with the bootstrap and comes to the entry point behind it. -/
theorem run_of_callingUnit :
    ∃ (p : Program) (r : Rom) (n : Nat) (m : Machine),
      translate ⟨false, .always⟩ [callingUnit] = .ok p ∧ Rom.load p.text = .ok r ∧
        Machine.initial.advance r n = some m ∧ m.pc = 53 ∧ m.state = .running := by
  obtain ⟨p, hp, hc⟩ := translate_callingUnit
  have hr := (translated_of_translate hp).load_text
  let S := stackMachine ⟨false, .always⟩ [callingUnit] (Rom.link p.instructions)
  let M : Memory := Memory.write Machine.initial.memory 0 256
  have hpieces : S.pieces = _ := pieces_callingUnit
  have hbootstrap : pieceAt? S.pieces 0 = some .bootstrap := by
    rw [hpieces]
    rfl
  have hentry : S.entry MemoryMap.entryPoint = 53 := by
    rw [StackMachine.entry, hpieces]
    rfl
  have hroom : M.HasRoom 5 := by
    have hsp : M.sp = 256 := Memory.read_write_self (by decide)
    rw [Memory.HasRoom, hsp]
    decide
  have hstep : S.step ⟨Machine.initial.memory, 0⟩ = some ⟨M.openFrame 53 0, 53⟩ := by
    rw [StackMachine.step,
      show pieceAt? S.pieces (0 : Word).toNat = some .bootstrap from hbootstrap]
    show S.call M 53 MemoryMap.entryPoint 0 = _
    rw [StackMachine.call, if_pos hroom, hentry]
    rfl
  have hsteps : S.steps 1 ⟨Machine.initial.memory, 0⟩ = some ⟨M.openFrame 53 0, 53⟩ := by
    rw [StackMachine.steps, hstep]
    rfl
  obtain ⟨n, m, ha, -, hpc, hm, -⟩ := (run_of_translated hp hc hr targetsDeclared_callingUnit
    entryPointDeclared_callingUnit (m := Machine.initial) rfl).1 1 _ hsteps
  exact ⟨p, _, n, m, hp, hr, ha, hpc, hm⟩

end HackVM
