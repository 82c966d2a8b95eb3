import HackVM.Proofs.Frames
import HackVM.Proofs.Refinement

/-!
# Calls are balanced

A call is followed to the return that matches it, through any number of calls in between. While
it is open, no command may take operands or arguments from below the base of its frame, and no
pop may write the stack pointer, the pointers `LCL` and `ARG`, or the header of an open frame.
Then the return leaves the caller as it was, with the return value in place of the arguments.

The invariant of such a run is that the open frames form a chain. It is enough that a command
keeps the headers, `LCL` and `ARG`; only a call adds a frame to the chain, and only a return
takes one from it.
-/

namespace HackVM

open Assembly

/-! ## Discipline -/

/-- How many operands or arguments a command takes from the stack. -/
def Command.takes : Command → Nat
  | .pop _ _ | .ifGoto _ => 1
  | .arithmetic op => op.arity
  | .call _ args => args
  | _ => 0

/-- The cell that an operand names. -/
def Operand.address? : Operand → Option Word
  | constant _ => none
  | cell a | element a => some a

/-- The stack pointer, `LCL` and `ARG`, and the headers of the open frames. -/
def Protected (fs : List Word) (c : Word) : Prop := c.toNat ≤ 2 ∨ ∃ l ∈ fs, InHeader l c

/-- A command takes nothing from below `LCL`, and does not pop into a protected cell. -/
structure Disciplined (S : StackMachine) (fs : List Word) (M : Memory) (s : Site) : Prop where
  takes : s.command.takes = 0 ∨ (M.read 1).toNat + s.command.takes ≤ M.sp.toNat
  writes : ∀ segment index, s.command = .pop segment index → segment ≠ .temp →
    segment ≠ .pointer → ∀ a,
      (Operand.of S.static s.place.unit M index segment).address? = some a → ¬ Protected fs a

/-! ## Runs inside a call -/

/-- One piece inside a call. The lists are the bases of the frames that are open before and
after, innermost first; the outermost frame stays open. -/
inductive FrameStep (S : StackMachine) : List Word → StackState → List Word → StackState → Prop
  | call {fs : List Word} {s t : StackState} {site : Site} {n : Numbering} {name : String}
      {args : Nat} (piece : pieceAt? S.pieces s.next.toNat = some (.command site n))
      (command : site.command = .call name args) (disciplined : Disciplined S fs s.memory site)
      (step : S.step s = some t) : FrameStep S fs s (t.memory.read 1 :: fs) t
  | ret {l l' : Word} {fs : List Word} {s t : StackState} {site : Site} {n : Numbering}
      (piece : pieceAt? S.pieces s.next.toNat = some (.command site n))
      (command : site.command = .ret) (step : S.step s = some t) :
      FrameStep S (l :: l' :: fs) s (l' :: fs) t
  | other {fs : List Word} {s t : StackState}
      (disciplined : ∀ site n, pieceAt? S.pieces s.next.toNat = some (.command site n) →
        (∀ name args, site.command ≠ .call name args) ∧ site.command ≠ .ret ∧
          Disciplined S fs s.memory site)
      (step : S.step s = some t) : FrameStep S fs s fs t

/-- Any number of pieces inside a call. -/
inductive FrameRun (S : StackMachine) : List Word → StackState → List Word → StackState → Prop
  | refl (fs : List Word) (s : StackState) : FrameRun S fs s fs s
  | step {fs gs hs : List Word} {s t u : StackState} (run : FrameRun S fs s gs t)
      (last : FrameStep S gs t hs u) : FrameRun S fs s hs u

theorem FrameStep.step_eq {S : StackMachine} {fs gs : List Word} {s t : StackState}
    (h : FrameStep S fs s gs t) : S.step s = some t := by
  cases h with
  | call _ _ _ step => exact step
  | ret _ _ step => exact step
  | other _ step => exact step

/-! ## Commands that open and close no frame -/

section

variable {fs : List Word} {M M' : Memory} (h : Sound fs M)

include h

theorem Operand.keeps_push (hr : M.HasRoom 1) {x : Operand} (hp : x.push M = some M') :
    Keeps fs M M' := by
  cases x with
  | constant v =>
    cases hp
    exact h.keeps_push hr v
  | cell a =>
    rw [push] at hp
    split at hp
    · cases hp
      exact h.keeps_push hr _
    · cases hp
  | element a =>
    rw [push] at hp
    split at hp
    · cases hp
      have hw := h.keeps_write_fixed (c := 13) (by decide) (by decide) a
      exact hw.trans ((hw.sound h).keeps_push (hr.write (by decide) a) _)
    · cases hp

theorem Operand.keeps_pop (hv : M.HasValues 1) (hl : (M.read 1).toNat + 1 ≤ M.sp.toNat)
    {x : Operand} (hx : ∀ a, x.address? = some a → ¬ Protected fs a) (hp : x.pop M = some M') :
    Keeps fs M M' := by
  -- the operand is written last, into a cell that is not protected
  have last : ∀ {M : Memory} {a : Word}, Sound fs M → x.address? = some a → ∀ v,
      Keeps fs M (M.write a v) := by
    intro M a h ha v
    have hn := hx a ha
    rw [Protected, not_or] at hn
    exact h.keeps_write (Nat.lt_of_not_le hn.1) (fun l hl hi => hn.2 ⟨l, hl, hi⟩) v
  cases x with
  | constant v => cases hp
  | cell a =>
    rw [pop] at hp
    split at hp
    · cases hp
      have hd := h.keeps_drop hv hl
      exact hd.trans (last (hd.sound h) rfl _)
    · cases hp
  | element a =>
    rw [pop] at hp
    split at hp
    · cases hp
      have hw := h.keeps_write_fixed (c := 13) (by decide) (by decide) a
      have hl' : ((M.write 13 a).read 1).toNat + 1 ≤ (M.write 13 a).sp.toNat := by
        rw [hw.lcl, Memory.sp_write_of_ne (by decide)]
        exact hl
      have hd := (hw.sound h).keeps_drop (hv.write (by decide) a) hl'
      have hk := hw.trans hd
      exact hk.trans (last (hk.sound h) rfl _)
    · cases hp

theorem ArithmeticOp.keeps_apply {op : ArithmeticOp} (hv : M.HasValues op.arity)
    (hl : (M.read 1).toNat + op.arity ≤ M.sp.toNat) : Keeps fs M (op.apply M) := by
  by_cases ha : op.arity = 1
  · rw [ha] at hv hl
    rw [apply, if_pos ha]
    have hd := h.keeps_drop hv hl
    exact hd.trans ((hd.sound h).keeps_push hv.hasRoom_drop _)
  · have h2 : op.arity = 2 := by cases op <;> first | rfl | exact absurd rfl ha
    rw [h2] at hv hl
    rw [apply, if_neg ha]
    have hs : M.drop.sp.toNat = M.sp.toNat - 1 := by
      rw [Memory.sp_drop, hv.toNat_sub_one]
    have hd := h.keeps_drop (hv.mono (by decide)) (by omega)
    have hl' : (M.drop.read 1).toNat + 1 ≤ M.drop.sp.toNat := by
      rw [hd.lcl, hs]
      omega
    have hk := hd.trans ((hd.sound h).keeps_drop hv.drop hl')
    exact hk.trans ((hk.sound h).keeps_push hv.drop.hasRoom_drop _)

/-- The elements of `temp` and the pointers `THIS` and `THAT` are fixed cells above `ARG`. -/
theorem not_protected_of_fixed {static : String → Word} {unit : String} {index : Nat}
    {segment : Segment} (hs : segment = .temp ∨ segment = .pointer)
    (hi : index ≤ segment.maxIndex) {a : Word}
    (ha : (Operand.of static unit M index segment).address? = some a) : ¬ Protected fs a := by
  have hfixed : 2 < a.toNat ∧ a.toNat < 16 := by
    rcases hs with rfl | rfl
    · have hi : index ≤ 7 := hi
      obtain rfl : BitVec.ofNat 16 (5 + index) = a := Option.some.inj ha
      rw [BitVec.toNat_ofNat]
      omega
    · obtain rfl : (if index = 0 then 3 else 4 : Word) = a := Option.some.inj ha
      split
      · decide
      · decide
  intro hp
  rcases hp with hp | ⟨l, hl, hp⟩
  · omega
  · exact h.not_inHeader hfixed.2 l hl hp

/-- A disciplined command that is no call and no return keeps the frames. -/
theorem StackMachine.keeps_perform {S : StackMachine} {s : Site} {t : StackState} {back : Nat}
    (hi : s.command.InRange) (hd : Disciplined S fs M s)
    (hc : ∀ name args, s.command ≠ .call name args) (hr : s.command ≠ .ret)
    (hp : S.perform M back s = some t) : Keeps fs M t.memory := by
  have ht := hd.takes
  rw [perform] at hp
  split at hp
  · split at hp
    · rename_i hroom
      obtain ⟨M', hm, rfl⟩ := Option.map_eq_some_iff.1 hp
      exact Operand.keeps_push h hroom hm
    · cases hp
  · rename_i segment index hcmd
    rw [hcmd] at ht hi
    split at hp
    · rename_i hvalues
      obtain ⟨M', hm, rfl⟩ := Option.map_eq_some_iff.1 hp
      refine Operand.keeps_pop h hvalues (ht.resolve_left Nat.one_ne_zero) (fun a ha => ?_) hm
      by_cases hs : segment = .temp ∨ segment = .pointer
      · exact not_protected_of_fixed h hs hi.2 ha
      · rw [not_or] at hs
        exact hd.writes segment index hcmd hs.1 hs.2 a ha
    · cases hp
  · rename_i op hcmd
    rw [hcmd] at ht
    split at hp
    · rename_i hvalues
      obtain rfl := Option.some.inj hp
      refine ArithmeticOp.keeps_apply h hvalues (ht.resolve_left ?_)
      cases op <;> decide
    · cases hp
  · obtain rfl := Option.some.inj hp
    exact Keeps.refl h
  · obtain rfl := Option.some.inj hp
    exact Keeps.refl h
  · rename_i label hcmd
    rw [hcmd] at ht
    split at hp
    · rename_i hvalues
      obtain rfl := Option.some.inj hp
      exact h.keeps_drop hvalues (ht.resolve_left Nat.one_ne_zero)
    · cases hp
  · split at hp
    · rename_i hroom
      obtain rfl := Option.some.inj hp
      exact h.keeps_pushZeros hroom
    · cases hp
  · rename_i name args hcmd
    exact absurd hcmd (hc name args)
  · rename_i hcmd
    exact absurd hcmd hr

end

/-! ## The bootstrap is not met again -/

section

variable {o : Options} {units : List SourceUnit}

/-- No bootstrap begins at the word. -/
def Started (o : Options) (units : List SourceUnit) (w : Word) : Prop :=
  pieceAt? (pieces o units) w.toNat ≠ some .bootstrap

/-- The bootstrap is the first of the pieces, and only there. -/
theorem pieces_of_mem_bootstrap (h : Piece.bootstrap ∈ pieces o units) :
    ∃ ps, pieces o units = .bootstrap :: ps ∧ .bootstrap ∉ ps := by
  have ha := Translated.appliesTo_of_placed h rfl
  refine ⟨sitePieces (firstNumbering true) (sites units), ?_, ?_⟩
  · simp only [pieces, ha, if_true, List.append_nil]
    rfl
  · intro hm
    obtain ⟨s, hs, k, he⟩ := mem_sitePieces hm
    cases he

theorem started_of_ne_zero {w : Word} (hw : w ≠ 0) : Started o units w := by
  intro hp
  obtain ⟨hq, -⟩ := placed_of_pieceAt? hp
  obtain ⟨ps, hs, hn⟩ := pieces_of_mem_bootstrap hq.mem
  obtain ⟨front, back, he, ha⟩ := hq
  cases front with
  | nil => exact hw (BitVec.eq_of_toNat_eq ha.symm)
  | cons c front =>
    rw [hs] at he
    exact hn ((List.cons.inj he).2 ▸ List.mem_append_right front List.mem_cons_self)

/-- Where a command is, the bootstrap is over. -/
theorem started_of_placed {a : Nat} {s : Site} {n : Numbering}
    (hq : Placed (pieces o units) a (.command s n)) (ha : a ≤ maxWord) :
    Started o units (BitVec.ofNat 16 a) := by
  intro hp
  obtain ⟨hb, -⟩ := placed_of_pieceAt? hp
  obtain ⟨ps, hs, hn⟩ := pieces_of_mem_bootstrap hb.mem
  have hpos : 0 < a := by
    obtain ⟨front, back, he, rfl⟩ := hq
    rw [hs] at he
    cases front with
    | nil => cases he
    | cons c front =>
      have hc : c = .bootstrap := (List.cons.inj he).1.symm
      have hw : Piece.bootstrap.size = 53 := rfl
      rw [extent_cons, hc, hw]
      omega
  exact started_of_ne_zero (ofNat_ne_zero hpos ha) hp

variable {p : Program} {r : Rom} {M : Memory} {s : Site} {t : StackState} {back : Nat}

/-- A command that is no return goes to the next piece or to where a command is. -/
theorem started_of_perform (h : Translated o units p) (ht : TargetsDeclared units)
    (hc : p.executableCount ≤ maxWord) (hs : s ∈ sites units) (hb : 0 < back)
    (hm : back ≤ maxWord) (hr : s.command ≠ .ret)
    (hp : (stackMachine o units r).perform M back s = some t) : Started o units t.next := by
  rcases StackMachine.next_of_perform hp with hn | ⟨name, hcmd, hn⟩ | ⟨name, args, hcmd, hn⟩ | hcmd
  · rw [hn]
    exact started_of_ne_zero (ofNat_ne_zero hb hm)
  · rw [hn]
    obtain ⟨d, n, -, -, hq⟩ := placed_target (o := o) r (ht.label s hs name hcmd)
    exact started_of_placed hq (h.le_maxWord hc hq)
  · rw [hn]
    obtain ⟨d, n, k, -, hq⟩ := placed_entry (o := o) r (ht.function s hs name args hcmd)
    exact started_of_placed hq (h.le_maxWord hc hq)
  · exact absurd hcmd hr

end

/-! ## The frames during a call -/

/-- The frames are open, and the outermost of them is the frame of a call. -/
structure Inside (o : Options) (units : List SourceUnit) (k : Caller) (fs : List Word)
    (s : StackState) : Prop where
  base : fs.head? = some (s.memory.read 1)
  chain : Chain k s.memory fs (s.memory.read 2)
  lcl_le_sp : (s.memory.read 1).toNat ≤ s.memory.sp.toNat
  started : Started o units s.next

namespace Inside

variable {o : Options} {units : List SourceUnit} {k : Caller} {fs gs : List Word}
  {s t : StackState}

theorem eq_cons (h : Inside o units k fs s) : ∃ gs, fs = s.memory.read 1 :: gs := by
  cases fs with
  | nil => cases h.base
  | cons l gs => exact ⟨gs, by rw [Option.some.inj h.base]⟩

theorem sound (h : Inside o units k fs s) : Sound fs s.memory := by
  obtain ⟨gs, rfl⟩ := h.eq_cons
  exact ⟨h.lcl_le_sp, h.chain.header⟩

theorem of_keeps (h : Inside o units k fs s) (hk : Keeps fs s.memory t.memory)
    (ht : Started o units t.next) : Inside o units k fs t := by
  obtain ⟨gs, rfl⟩ := h.eq_cons
  refine ⟨?_, ?_, ?_, ht⟩
  · rw [hk.lcl, List.head?_cons]
  · rw [hk.arg]
    exact h.chain.congr hk.header
  · rw [hk.lcl]
    exact hk.lcl_le_sp

theorem openFrame (h : Inside o units k fs s) (hr : s.memory.HasRoom 5) {back : Word}
    (hb : back ≠ 0) {args : Nat} (ha : (s.memory.read 1).toNat + args ≤ s.memory.sp.toNat)
    {next : Word} (hn : Started o units next) :
    Inside o units k ((s.memory.openFrame back args).read 1 :: fs)
      ⟨s.memory.openFrame back args, next⟩ := by
  obtain ⟨gs, rfl⟩ := h.eq_cons
  refine ⟨rfl, ?_, ?_, hn⟩
  · show Chain k _ _ ((s.memory.openFrame back args).read 2)
    rw [Memory.read_openFrame_lcl hr, Memory.read_openFrame_arg hr]
    exact h.chain.openFrame hr hb ha
  · show ((s.memory.openFrame back args).read 1).toNat ≤ (s.memory.openFrame back args).sp.toNat
    exact Nat.le_of_eq (by rw [Memory.read_openFrame_lcl hr, Memory.sp_openFrame hr])

theorem closeFrame {l l' : Word} (h : Inside o units k (l :: l' :: fs) s) (hf : s.memory.HasFrame) :
    Inside o units k (l' :: fs) ⟨s.memory.closeFrame, s.memory.closeFrame.read 15⟩ := by
  obtain rfl : l = s.memory.read 1 := Option.some.inj h.base
  have h5 := h.chain.add_five_le
  have hle := (h.chain.le_arg l' List.mem_cons_self).2
  obtain ⟨hl, hchain⟩ := h.chain.closeFrame hf
  refine ⟨?_, hchain, ?_, ?_⟩
  · show some l' = some (s.memory.closeFrame.read 1)
    rw [hl]
  · show (s.memory.closeFrame.read 1).toNat ≤ s.memory.closeFrame.sp.toNat
    have ha : (s.memory.read 2).toNat ≤ 32767 := hf.2.2.2
    rw [hl, Memory.sp_closeFrame hf h5,
      Memory.toNat_add_of_le (show (s.memory.read 2).toNat + 1 ≤ 65535 by omega)]
    omega
  · show Started o units (s.memory.closeFrame.read 15)
    rw [Memory.read_closeFrame_returnAddress hf h5]
    exact started_of_ne_zero h.chain.2.2.1

/-- A return that finds its value on the stack is carried out. -/
theorem step_ret {S : StackMachine} {site : Site} {n : Numbering} (h : Inside o units k fs s)
    (hp : pieceAt? S.pieces s.next.toNat = some (.command site n)) (hc : site.command = .ret)
    (hv : s.memory.HasValues 1) : s.memory.HasFrame ∧
      S.step s = some ⟨s.memory.closeFrame, s.memory.closeFrame.read 15⟩ := by
  obtain ⟨gs, rfl⟩ := h.eq_cons
  have hf : s.memory.HasFrame := h.chain.hasFrame (Nat.le_trans h.lcl_le_sp hv.2)
  refine ⟨hf, ?_⟩
  rw [StackMachine.step_command hp, StackMachine.perform_ret hc, if_pos ⟨hv, hf⟩]

section

variable {p : Program} {r : Rom} {site : Site} {n : Numbering} (hx : Translated o units p)
  (ht : TargetsDeclared units) (hc : p.executableCount ≤ maxWord) (h : Inside o units k fs s)
  (hp : pieceAt? (pieces o units) s.next.toNat = some (.command site n))
  (hs : (stackMachine o units r).step s = some t)

include hx ht hc h hp hs

theorem step_call {name : String} {args : Nat} (hcmd : site.command = .call name args)
    (hd : Disciplined (stackMachine o units r) fs s.memory site) :
    Inside o units k (t.memory.read 1 :: fs) t := by
  obtain ⟨hq, hz⟩ := placed_of_pieceAt? hp
  have hmax := hx.add_size_le_maxWord hc hq
  have htakes := hd.takes
  have hle := h.lcl_le_sp
  have hret : site.command ≠ .ret := by
    rw [hcmd]
    intro h
    cases h
  rw [StackMachine.step_command hp] at hs
  have hn := started_of_perform hx ht hc (mem_sites_of_mem_pieces hq.mem) (by omega) hmax hret hs
  rw [StackMachine.perform_call hcmd] at hs
  obtain ⟨hroom, rfl⟩ := StackMachine.eq_of_call hs
  -- the return address is behind the call, so it is not 0
  refine h.openFrame hroom (ofNat_ne_zero (by omega) hmax) ?_ hn
  rw [hcmd] at htakes
  change args = 0 ∨ _ + args ≤ _ at htakes
  omega

theorem step_other (hcall : ∀ name args, site.command ≠ .call name args)
    (hret : site.command ≠ .ret) (hd : Disciplined (stackMachine o units r) fs s.memory site) :
    Inside o units k fs t := by
  obtain ⟨hq, hz⟩ := placed_of_pieceAt? hp
  have hm := mem_sites_of_mem_pieces hq.mem
  rw [StackMachine.step_command hp] at hs
  have hn := started_of_perform hx ht hc hm (by omega) (hx.add_size_le_maxWord hc hq) hret hs
  exact h.of_keeps
    (StackMachine.keeps_perform h.sound (hx.accepted hm).inRange hd hcall hret hs) hn

end

/-- A step inside the call keeps the invariant. -/
theorem step {p : Program} {r : Rom} (hx : Translated o units p) (ht : TargetsDeclared units)
    (hc : p.executableCount ≤ maxWord) (h : Inside o units k fs s)
    (hs : FrameStep (stackMachine o units r) fs s gs t) : Inside o units k gs t := by
  cases hs with
  | call piece command disciplined step =>
    exact h.step_call hx ht hc piece step command disciplined
  | ret piece command step =>
    rw [StackMachine.step_command piece, StackMachine.perform_ret command] at step
    split at step
    · rename_i hguard
      obtain rfl := Option.some.inj step
      exact h.closeFrame hguard.2
    · cases step
  | other disciplined step =>
    cases hp : pieceAt? (stackMachine o units r).pieces s.next.toNat with
    | none =>
      rw [StackMachine.step, hp] at step
      cases step
    | some q =>
      cases q with
      | bootstrap => exact absurd hp h.started
      | halt =>
        rw [StackMachine.step, hp] at step
        obtain rfl := Option.some.inj step
        exact h
      | command site n =>
        obtain ⟨hcall, hret, hd⟩ := disciplined site n hp
        exact h.step_other hx ht hc hp step hcall hret hd

/-- A run inside the call keeps the invariant, and the machine follows it. -/
theorem run {p : Program} (hx : Translated o units p) (ht : TargetsDeclared units)
    (hc : p.executableCount ≤ maxWord) (h : Inside o units k fs s) {m : Machine} (hm : m.Shows s)
    (hs : FrameRun (stackMachine o units (Rom.link p.instructions)) fs s gs t) :
    Inside o units k gs t ∧
      ∃ n m', m.advance (Rom.link p.instructions) n = some m' ∧ m'.Shows t := by
  induction hs with
  | refl => exact ⟨h, 0, m, rfl, hm⟩
  | step run last ih =>
    obtain ⟨hi, n, m₁, ha, hm₁⟩ := ih h hm
    obtain ⟨l, m₂, hb, hm₂, -⟩ :=
      hx.advance_of_step ht hc hm₁ (fun hp => absurd hp hi.started) last.step_eq
    refine ⟨hi.step hx ht hc last, n + l, m₂, ?_, hm₂⟩
    rw [Machine.advance_add, ha, Option.bind_some, hb]

end Inside

/-! ## The return of a call -/

/-- Behind a call that was to be carried out in the first state: the return value stands in place
of the arguments, and the pointers are those of the caller. -/
structure StackState.Returned (s u : StackState) (back args : Nat) (value : Word) : Prop where
  next : u.next = BitVec.ofNat 16 back
  sp : u.memory.sp = s.memory.sp - BitVec.ofNat 16 args + 1
  value : u.memory.read (s.memory.sp - BitVec.ofNat 16 args) = value
  lcl : u.memory.read 1 = s.memory.read 1
  arg : u.memory.read 2 = s.memory.read 2
  this : u.memory.read 3 = s.memory.read 3
  that : u.memory.read 4 = s.memory.read 4

/-- Closing the last frame of a chain brings back its caller. -/
theorem Chain.returned {s t : StackState} {back args : Nat}
    (h : Chain ⟨BitVec.ofNat 16 back, s.memory.read 1, s.memory.read 2, s.memory.read 3,
      s.memory.read 4, s.memory.sp - BitVec.ofNat 16 args⟩ t.memory [t.memory.read 1]
      (t.memory.read 2)) (hf : t.memory.HasFrame) :
    s.Returned ⟨t.memory.closeFrame, t.memory.closeFrame.read 15⟩ back args t.memory.top := by
  have h5 := h.add_five_le
  obtain ⟨-, -, hbase, hback, h₁, h₂, h₃, h₄⟩ := h
  have hbase : t.memory.read 2 = s.memory.sp - BitVec.ofNat 16 args := hbase
  refine ⟨?_, ?_, ?_, ?_, ?_, ?_, ?_⟩
  · exact (Memory.read_closeFrame_returnAddress hf h5).trans hback
  · rw [← hbase]
    exact Memory.sp_closeFrame hf h5
  · rw [← hbase]
    show t.memory.closeFrame.read (t.memory.read 2) = t.memory.top
    rw [Memory.read_closeFrame_of_far hf h5 hf.2.2.1, if_pos rfl]
  · exact (Memory.read_closeFrame_lcl hf h5).trans h₁
  · exact (Memory.read_closeFrame_arg hf h5).trans h₂
  · exact (Memory.read_closeFrame_this hf h5).trans h₃
  · exact (Memory.read_closeFrame_that hf h5).trans h₄

/-- A call opens the outermost frame. -/
theorem Inside.of_call {o : Options} {units : List SourceUnit} {s e : StackState} {back args : Nat}
    (hr : s.memory.HasRoom 5) (ha : 16 + args ≤ s.memory.sp.toNat)
    (hm : e.memory = s.memory.openFrame (BitVec.ofNat 16 back) args)
    (hn : Started o units e.next) :
    Inside o units ⟨BitVec.ofNat 16 back, s.memory.read 1, s.memory.read 2, s.memory.read 3,
      s.memory.read 4, s.memory.sp - BitVec.ofNat 16 args⟩ [e.memory.read 1] e := by
  refine ⟨rfl, ?_, ?_, hn⟩
  · rw [hm, Memory.read_openFrame_lcl hr, Memory.read_openFrame_arg hr]
    exact Chain.open_first hr _ ha
  · rw [hm]
    exact Nat.le_of_eq (by rw [Memory.read_openFrame_lcl hr, Memory.sp_openFrame hr])

/-- Calls are balanced. A machine that is about to execute a call opens its frame; and from each
disciplined run inside the call to the return that matches it, the machine comes back behind the
call, as the caller was. -/
theorem returned_of_call {o : Options} {units : List SourceUnit} {p : Program} {r : Rom}
    (h : translate o units = .ok p) (hc : p.executableCount ≤ maxWord)
    (hr : Rom.load p.text = .ok r) (ht : TargetsDeclared units) {m : Machine} {s : StackState}
    (hm : m.Shows s) {site : Site} {n : Numbering} {name : String} {args : Nat}
    (hp : pieceAt? (pieces o units) s.next.toNat = some (.command site n))
    (hcmd : site.command = .call name args) (hargs : 16 + args ≤ s.memory.sp.toNat)
    (hroom : s.memory.sp.toNat + 5 ≤ maxAddress) :
    ∃ e, (stackMachine o units r).step s = some e ∧
      ∀ l t site' n', FrameRun (stackMachine o units r) [e.memory.read 1] e [l] t →
        pieceAt? (pieces o units) t.next.toNat = some (.command site' n') →
        site'.command = .ret → t.memory.HasValues 1 →
        ∃ j m₁ k m₂ u, m.advance r j = some m₁ ∧ m₁.Shows t ∧ m₁.advance r k = some m₂ ∧
          m₂.Shows u ∧
          s.Returned u (s.next.toNat + (Piece.command site n).size) args t.memory.top := by
  have hx := translated_of_translate h
  obtain rfl := hx.eq_link_of_load hr
  obtain ⟨hq, hz⟩ := placed_of_pieceAt? hp
  have hmax := hx.add_size_le_maxWord hc hq
  have hfive : s.memory.HasRoom 5 := by
    have hroom : s.memory.sp.toNat + 5 ≤ 32767 := hroom
    exact ⟨by omega, by omega⟩
  let S := stackMachine o units (Rom.link p.instructions)
  let back := s.next.toNat + (Piece.command site n).size
  let e : StackState := ⟨s.memory.openFrame (BitVec.ofNat 16 back) args,
    BitVec.ofNat 16 (S.entry name)⟩
  have hperform : S.perform s.memory back site = some e := by
    rw [StackMachine.perform_call hcmd, StackMachine.call, if_pos hfive]
  have hstep : S.step s = some e := by
    rw [StackMachine.step_command hp]
    exact hperform
  refine ⟨e, hstep, ?_⟩
  intro l t site' n' hrun hp' hret hv
  have first : Inside o units _ [e.memory.read 1] e :=
    Inside.of_call hfive hargs rfl (started_of_perform hx ht hc (mem_sites_of_mem_pieces hq.mem)
      (by omega) hmax (by rw [hcmd]; intro h; cases h) hperform)
  -- the machine follows into the call, to the return, and through it
  obtain ⟨i, m₀, ha₀, hm₀, -⟩ :=
    hx.advance_of_step ht hc hm (fun hb => by rw [hp] at hb; cases hb) hstep
  obtain ⟨last, j, m₁, ha₁, hm₁⟩ := first.run hx ht hc hm₀ hrun
  obtain rfl : l = t.memory.read 1 := Option.some.inj last.base
  obtain ⟨hf, hend⟩ := last.step_ret (S := S) hp' hret hv
  obtain ⟨k, m₂, ha₂, hm₂, -⟩ :=
    hx.advance_of_step ht hc hm₁ (fun hb => by rw [hp'] at hb; cases hb) hend
  refine ⟨i + j, m₁, k, m₂, _, ?_, hm₁, ha₂, hm₂, last.chain.returned hf⟩
  rw [Machine.advance_add, ha₀, Option.bind_some, ha₁]

/-- The call at address 53 returns with 7 to address 102. -/
theorem returned_of_callingUnit :
    ∃ (p : Program) (r : Rom) (m m' : Machine) (s u : StackState) (k : Nat),
      translate ⟨false, .always⟩ [callingUnit] = .ok p ∧ Rom.load p.text = .ok r ∧
        s.next = 53 ∧ m.Shows s ∧ m.advance r k = some m' ∧ m'.Shows u ∧ s.Returned u 102 0 7 := by
  obtain ⟨p, hp, hc⟩ := translate_callingUnit
  have hx := translated_of_translate hp
  let S := stackMachine ⟨false, .always⟩ [callingUnit] (Rom.link p.instructions)
  let M : Memory := Memory.write Machine.initial.memory 0 261
  let m : Machine := { Machine.initial with memory := M, pc := 53 }
  let f : Place := ⟨"Main", ⟨"Main.f"⟩⟩
  have hpieces : S.pieces = _ := pieces_callingUnit
  have hsp : M.sp = 261 := Memory.read_write_self (by decide)
  have hcall : pieceAt? S.pieces 53 =
      some (.command ⟨⟨"Main", ⟨"Sys.init"⟩⟩, "call Main.f 0", .call "Main.f" 0⟩ ⟨1, 0⟩) := by
    rw [hpieces]
    rfl
  have hpush : pieceAt? S.pieces 104 =
      some (.command ⟨f, "push constant 7", .push .constant 7⟩ ⟨2, 0⟩) := by
    rw [hpieces]
    rfl
  have hret : pieceAt? S.pieces 111 = some (.command ⟨f, "return", .ret⟩ ⟨2, 0⟩) := by
    rw [hpieces]
    rfl
  have hentry : S.entry "Main.f" = 104 := by
    rw [StackMachine.entry, hpieces]
    rfl
  obtain ⟨e, he, hreturn⟩ := returned_of_call hp hc hx.load_text targetsDeclared_callingUnit
    (m := m) (s := ⟨M, 53⟩) ⟨rfl, rfl, rfl⟩ hcall rfl
    (by show 16 + 0 ≤ M.sp.toNat; rw [hsp]; decide)
    (by show M.sp.toNat + 5 ≤ maxAddress; rw [hsp]; decide)
  rw [StackMachine.step_command (s := ⟨M, 53⟩) hcall, StackMachine.perform_call rfl] at he
  obtain ⟨hroom, hframe⟩ := StackMachine.eq_of_call he
  have hnext : e.next = 104 := by
    rw [hframe, hentry]
    rfl
  have hsp' : e.memory.sp = 266 := by
    rw [hframe]
    show (M.openFrame _ 0).sp = 266
    rw [Memory.sp_openFrame hroom, hsp]
    rfl
  have hroom' : e.memory.HasRoom 1 := by
    rw [Memory.HasRoom, hsp']
    decide
  have hpiece : pieceAt? S.pieces e.next.toNat =
      some (.command ⟨f, "push constant 7", .push .constant 7⟩ ⟨2, 0⟩) := by
    rw [hnext]
    exact hpush
  let t : StackState := ⟨e.memory.push 7, 111⟩
  have hstep : S.step e = some t := by
    rw [StackMachine.step_command hpiece, hnext]
    show (if e.memory.HasRoom 1 then some t else none) = some t
    rw [if_pos hroom']
  have hrun : FrameRun S [e.memory.read 1] e [e.memory.read 1] t := by
    refine .step (.refl _ _) (.other ?_ hstep)
    intro site n h
    rw [hpiece] at h
    obtain ⟨rfl, rfl⟩ := Piece.command.inj (Option.some.inj h)
    refine ⟨?_, ?_, .inl rfl, ?_⟩
    · intro name args hc
      cases hc
    · intro hc
      cases hc
    · intro segment index hc
      cases hc
  have hvalues : t.memory.HasValues 1 := by
    show (e.memory.push 7).HasValues 1
    rw [Memory.HasValues, Memory.sp_push, hsp']
    decide
  have htop : t.memory.top = 7 := by
    show (e.memory.push 7).top = 7
    rw [Memory.top, Memory.sp_push, BitVec.add_sub_cancel, Memory.read_sp_push hroom']
  obtain ⟨j, m₁, k, m₂, u, h₁, -, h₂, hu, hback⟩ := hreturn _ t _ _ hrun hret rfl hvalues
  rw [htop] at hback
  refine ⟨p, _, m, m₂, ⟨M, 53⟩, u, j + k, hp, hx.load_text, rfl, ⟨rfl, rfl, rfl⟩, ?_, hu, hback⟩
  rw [Machine.advance_add, h₁, Option.bind_some, h₂]

end HackVM
