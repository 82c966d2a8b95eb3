import HackVM.Proofs.Effects

/-!
# The machine follows the stack machine

Program memory is held against the pieces of the source. Where the stack machine carries out a
piece, the machine executes the words of the piece: it leaves the same memory, and goes on where
the stack machine does. Only a jump to itself is left out, where the machine halts.
-/

namespace HackVM

open Assembly Instruction Sequence HackVM.Core

/-! ## Jumps of the source -/

/-- The jumps and calls of the source go to what it declares, and no name of a called function
is predefined. -/
structure TargetsDeclared (units : List SourceUnit) : Prop where
  label : ∀ s ∈ sites units, ∀ name, s.command = .goto name ∨ s.command = .ifGoto name →
    ∃ t ∈ sites units, t.command = .label name ∧ t.place.scope.name = s.place.scope.name
  function : ∀ s ∈ sites units, ∀ name args, s.command = .call name args →
    ∃ t ∈ sites units, ∃ locals, t.command = .function name locals
  apart : ∀ s ∈ sites units, ∀ name args, s.command = .call name args →
    MemoryMap.predefined.lookup name = none

def Command.isFunction (name : String) : Command → Bool
  | .function f _ => f == name
  | _ => false

theorem Command.isFunction_iff {name : String} {c : Command} :
    c.isFunction name = true ↔ ∃ locals, c = .function name locals := by
  cases c with
  | function f locals => simp [isFunction]
  | _ => simp [isFunction]

/-- Whether the units declare what the site jumps to, if it jumps. -/
def Site.hasTarget (units : List SourceUnit) (s : Site) : Bool :=
  match s.command with
  | .goto name | .ifGoto name =>
    (sites units).any fun t => t.command == .label name && t.place.scope.name == s.place.scope.name
  | .call name _ =>
    ((sites units).any fun t => t.command.isFunction name) &&
      (MemoryMap.predefined.lookup name).isNone
  | _ => true

theorem targetsDeclared_iff {units : List SourceUnit} :
    TargetsDeclared units ↔ ∀ s ∈ sites units, s.hasTarget units = true := by
  constructor
  · intro h s hs
    rw [Site.hasTarget]
    cases hc : s.command with
    | goto name =>
      obtain ⟨t, ht, hl, hn⟩ := h.label s hs name (.inl hc)
      exact List.any_eq_true.2 ⟨t, ht, by simp [hl, hn]⟩
    | ifGoto name =>
      obtain ⟨t, ht, hl, hn⟩ := h.label s hs name (.inr hc)
      exact List.any_eq_true.2 ⟨t, ht, by simp [hl, hn]⟩
    | call name args =>
      obtain ⟨t, ht, k, hf⟩ := h.function s hs name args hc
      rw [Bool.and_eq_true, h.apart s hs name args hc]
      exact ⟨List.any_eq_true.2 ⟨t, ht, Command.isFunction_iff.2 ⟨k, hf⟩⟩, rfl⟩
    | _ => rfl
  · intro h
    refine ⟨?_, ?_, ?_⟩
    · intro s hs name hc
      have ht := h s hs
      have hl : ∃ t ∈ sites units,
          (t.command == .label name && t.place.scope.name == s.place.scope.name) = true := by
        rcases hc with hc | hc
        · rw [Site.hasTarget, hc] at ht
          exact List.any_eq_true.1 ht
        · rw [Site.hasTarget, hc] at ht
          exact List.any_eq_true.1 ht
      simpa using hl
    · intro s hs name args hc
      have ht := h s hs
      rw [Site.hasTarget, hc] at ht
      obtain ⟨t, hm, hf⟩ := List.any_eq_true.1 (Bool.and_eq_true_iff.1 ht).1
      exact ⟨t, hm, Command.isFunction_iff.1 hf⟩
    · intro s hs name args hc
      have ht := h s hs
      rw [Site.hasTarget, hc] at ht
      exact Option.isNone_iff_eq_none.1 (Bool.and_eq_true_iff.1 ht).2

instance (units : List SourceUnit) : Decidable (TargetsDeclared units) :=
  decidable_of_iff' _ targetsDeclared_iff

/-- What the bootstrap calls is declared, if there is one. -/
def EntryPointDeclared (o : Options) (units : List SourceUnit) : Prop :=
  o.bootstrap.appliesTo units.length = true →
    ∃ t ∈ sites units, ∃ locals, t.command = .function MemoryMap.entryPoint locals

/-- The stack machine that carries out the units; program memory gives statics their cells. -/
def stackMachine (o : Options) (units : List SourceUnit) (r : Rom) : StackMachine :=
  ⟨pieces o units, r.value⟩

section

variable {o : Options} {units : List SourceUnit} {name : String}

/-- The target of a jump is the label that is declared in the scope. -/
theorem placed_target {scope : String} (r : Rom)
    (hd : ∃ t ∈ sites units, t.command = .label name ∧ t.place.scope.name = scope) :
    ∃ t n, t.command = .label name ∧ t.place.scope.name = scope ∧
      Placed (pieces o units) ((stackMachine o units r).target scope name) (.command t n) := by
  obtain ⟨t, ht, hc, hs⟩ := hd
  obtain ⟨n, hn⟩ := exists_mem_pieces (o := o) ht
  have hl : Piece.isLabel scope name (.command t n) = true := by
    rw [Piece.isLabel, hc, hs]
    simp
  obtain ⟨q, hq, hp⟩ := exists_placed_positionOf ⟨_, hn, hl⟩
  cases q with
  | bootstrap => cases hq
  | halt => cases hq
  | command s m =>
    rw [Piece.isLabel, Bool.and_eq_true, beq_iff_eq, beq_iff_eq] at hq
    exact ⟨s, m, hq.1, hq.2, hp⟩

/-- The entry of a function is where it is declared. -/
theorem placed_entry (r : Rom)
    (hd : ∃ t ∈ sites units, ∃ locals, t.command = .function name locals) :
    ∃ t n locals, t.command = .function name locals ∧
      Placed (pieces o units) ((stackMachine o units r).entry name) (.command t n) := by
  obtain ⟨t, ht, k, hc⟩ := hd
  obtain ⟨n, hm⟩ := exists_mem_pieces (o := o) ht
  have hl : Piece.isFunction name (.command t n) = true := by
    rw [Piece.isFunction, hc]
    simp
  obtain ⟨q, hq, hp⟩ := exists_placed_positionOf ⟨_, hm, hl⟩
  cases q with
  | bootstrap => cases hq
  | halt => cases hq
  | command s m =>
    rw [Piece.isFunction] at hq
    split at hq
    · rename_i f locals hf
      rw [eq_of_beq hq] at hf
      exact ⟨s, m, locals, hf, hp⟩
    · cases hq

end

namespace Translated

variable {o : Options} {units : List SourceUnit} {p : Program}

/-- A label that is declared in the scope stands for its address. -/
theorem value_target (h : Translated o units p) {scope : Scope} {name : String}
    (hd : ∃ t ∈ sites units, t.command = .label name ∧ t.place.scope.name = scope.name) :
    let r := Rom.link p.instructions
    r.value (scope.qualify name) =
      BitVec.ofNat 16 ((stackMachine o units r).target scope.name name) := by
  intro r
  obtain ⟨t, n, hc, hs, hp⟩ := placed_target (o := o) r hd
  have hh := h.holdsAt hp
  rw [code_of_command hc rfl, Scope.qualify_congr hs] at hh
  exact Rom.value_of_label (lookup_predefined_of_mem (.inl rfl) (dollar_mem_qualify _ _)) hh.1

/-- The name of a declared function stands for its address if it is not predefined. -/
theorem value_entry (h : Translated o units p) {name : String}
    (hd : ∃ t ∈ sites units, ∃ locals, t.command = .function name locals)
    (hn : MemoryMap.predefined.lookup name = none) :
    let r := Rom.link p.instructions
    r.value name = BitVec.ofNat 16 ((stackMachine o units r).entry name) := by
  intro r
  obtain ⟨t, n, k, hc, hp⟩ := placed_entry (o := o) r hd
  have hh := h.holdsAt hp
  rw [code_of_command hc rfl] at hh
  exact Rom.value_of_label hn hh.1

end Translated

/-! ## Getting from state to state -/

/-- Whatever is in the registers, the machine gets from one state to the other in some steps. -/
def Reaches (r : Rom) (s s' : StackState) : Prop :=
  ∀ a d, ∃ k a' d', 0 < k ∧
    Leads r k ⟨s.memory, a, d⟩ s.next.toNat ⟨s'.memory, a', d'⟩ s'.next.toNat

section

variable {r : Rom} {M M' : Memory} {pc : Nat}

theorem ofNat_ne_ofNat {b c : Nat} (hb : b ≤ maxWord) (hc : c ≤ maxWord) (hne : b ≠ c) :
    BitVec.ofNat 16 b ≠ BitVec.ofNat 16 c := by
  intro he
  have ht := congrArg BitVec.toNat he
  rw [toNat_ofNat_of_le hb, toNat_ofNat_of_le hc] at ht
  exact hne ht

theorem ofNat_ne_zero {n : Nat} (h0 : 0 < n) (h : n ≤ maxWord) : BitVec.ofNat 16 n ≠ 0 :=
  ofNat_ne_ofNat h (Nat.zero_le maxWord) (Nat.ne_of_gt h0)

theorem closed_append {c e : List Instruction} (hc : closed c = true) (he : closed e = true) :
    closed (c ++ e) = true := by
  induction c with
  | nil => exact he
  | cons i c ih =>
    cases c with
    | nil =>
      cases i with
      | load x => cases hc
      | compute dest comp jump => exact he
      | label name => exact he
      | comment t => exact he
    | cons j c =>
      have hj : closed (j :: c) = true := by cases i <;> exact hc
      have ht := ih hj
      cases i <;> exact ht

/-- Code without jumps leads to the word behind it. -/
theorem reaches_block {code : List Instruction} (h : r.HoldsAt pc code)
    (hc : closed code = true) (hw : 0 < words code) (hpc : pc + words code ≤ maxWord)
    (hx : ∀ a d, ∃ a' d', exec r code ⟨M, a, d⟩ = some ⟨M', a', d'⟩) :
    Reaches r ⟨M, BitVec.ofNat 16 pc⟩ ⟨M', BitVec.ofNat 16 (pc + words code)⟩ := by
  intro a d
  obtain ⟨a', d', hx⟩ := hx a d
  refine ⟨words code, a', d', hw, ?_⟩
  dsimp only
  rw [toNat_ofNat_of_le (by omega), toNat_ofNat_of_le hpc]
  exact leads_block h hc (by omega) hx

theorem leads_jumpTo {c : Core} {name : String} (hpc : pc + 2 ≤ maxWord + 1)
    (h : r.HoldsAt pc (jumpTo name)) (hn : r.value name ≠ BitVec.ofNat 16 pc) :
    Leads r 2 c pc { c with a := r.value name } (r.value name).toNat :=
  leads_jump hpc h rfl fun _ _ => hn

/-- Code without jumps and a jump behind it lead to the target of the jump. -/
theorem reaches_jumpTo {code : List Instruction} {name : String} {b : Nat}
    (h : r.HoldsAt pc (code ++ jumpTo name)) (hc : closed code = true)
    (hpc : pc + words code + 2 ≤ maxWord) (hv : r.value name = BitVec.ofNat 16 b)
    (hb : b ≤ maxWord) (hn : b ≠ pc + words code)
    (hx : ∀ a d, ∃ a' d', exec r code ⟨M, a, d⟩ = some ⟨M', a', d'⟩) :
    Reaches r ⟨M, BitVec.ofNat 16 pc⟩ ⟨M', BitVec.ofNat 16 b⟩ := by
  intro a d
  obtain ⟨a', d', hx⟩ := hx a d
  obtain ⟨hcode, hjump⟩ := Rom.holdsAt_append.1 h
  have hne : r.value name ≠ BitVec.ofNat 16 (pc + words code) := by
    rw [hv]
    exact ofNat_ne_ofNat hb (by omega) hn
  have h₁ := leads_block hcode hc (by omega) hx
  have h₂ := leads_jumpTo (c := ⟨M', a', d'⟩) (by omega) hjump hne
  refine ⟨words code + 2, r.value name, d', by omega, ?_⟩
  have ht : (r.value name).toNat = (BitVec.ofNat 16 b).toNat := by rw [hv]
  dsimp only
  rw [toNat_ofNat_of_le (by omega), ← ht]
  exact h₁.trans h₂

/-- The difference of the operands is in `D`, the stack below them free. -/
theorem exec_difference {a d : Word} (h : M.HasValues 2) :
    exec r (popD ++ popA ++ [subFromA]) ⟨M, a, d⟩ =
      some ⟨M.drop.drop, M.drop.top, M.drop.top - M.top⟩ := by
  rw [exec_append_of_eq (exec_popD_popA h)]
  rfl

/-- A comparison runs through one of its two branches, which meet behind its labels. -/
theorem reaches_comparison {n : Numbering} {j : Jump} (h : r.HoldsAt pc (Expansion.comparison n j))
    (hpc : pc + words (Expansion.comparison n j) ≤ maxWord) (hv : M.HasValues 2) :
    Reaches r ⟨M, BitVec.ofNat 16 pc⟩
      ⟨M.drop.drop.push (truth (j.isTaken (M.drop.top - M.top))),
        BitVec.ofNat 16 (pc + words (Expansion.comparison n j))⟩ := by
  intro a d
  have hw : words (Expansion.comparison n j) = 22 := rfl
  rw [hw] at hpc ⊢
  dsimp only
  rw [toNat_ofNat_of_le (by omega), toNat_ofNat_of_le hpc]
  rw [Expansion.comparison, Rom.holdsAt_append, Rom.holdsAt_append] at h
  obtain ⟨⟨hfront, hload, hbranch, hzero, hskip, hgo, htrue, hone, hend, -⟩, hback⟩ := h
  have hT : r.number (.symbol n.trueLabel) = BitVec.ofNat 16 (pc + 16) :=
    Rom.value_of_label (lookup_predefined_of_mem (.inl rfl) (dollar_mem_trueLabel n)) htrue
  have hE : r.number (.symbol n.endLabel) = BitVec.ofNat 16 (pc + 17) :=
    Rom.value_of_label (lookup_predefined_of_mem (.inl rfl) (dollar_mem_endLabel n)) hend
  have hfree : M.drop.drop.HasRoom 1 := hv.drop.hasRoom_drop
  let v := M.drop.top - M.top
  have front : Leads r 11 ⟨M, a, d⟩ pc ⟨M.drop.drop, M.drop.top, v⟩ (pc + 11) :=
    leads_block hfront rfl (by show pc + 11 ≤ maxWord + 1; omega) (exec_difference hv)
  have hjump : r.HoldsAt (pc + 11) [load (.symbol n.trueLabel), branch .x j] :=
    ⟨hload, hbranch, trivial⟩
  have test := leads_jump (c := ⟨M.drop.drop, M.drop.top, v⟩) (by omega) hjump rfl
    fun h => by cases h
  have back : ∀ a w, Leads r 5 ⟨M.drop.drop, a, w⟩ (pc + 17) ⟨M.drop.drop.push w, 0, w⟩ (pc + 22) :=
    fun a w => leads_block hback rfl (by show pc + 17 + 5 ≤ maxWord + 1; omega) (exec_pushD hfree)
  by_cases ht : j.isTaken v = true
  · have hassign : r.HoldsAt (pc + 16) [assign .d .minusOne] := ⟨hone, trivial⟩
    have one : Leads r 1 ⟨M.drop.drop, r.number (.symbol n.trueLabel), v⟩ (pc + 16)
        ⟨M.drop.drop, r.number (.symbol n.trueLabel), -1⟩ (pc + 17) :=
      leads_block hassign rfl (by show pc + 16 + 1 ≤ maxWord + 1; omega) rfl
    have hx : j.isTaken (Comp.eval v (r.number (.symbol n.trueLabel)) .x) = true := ht
    rw [if_pos hx, hT, toNat_ofNat_of_le (by omega), ← hT] at test
    have hf : truth (j.isTaken (M.drop.top - M.top)) = -1 := by
      rw [truth, if_pos ht]
    rw [hf]
    exact ⟨11 + 2 + 1 + 5, 0, -1, by decide, ((front.trans test).trans one).trans (back _ (-1))⟩
  · have hassign : r.HoldsAt (pc + 13) [assign .d .zero] := ⟨hzero, trivial⟩
    have hgoto : r.HoldsAt (pc + 14) (jumpTo n.endLabel) := ⟨hskip, hgo, trivial⟩
    have zero : Leads r 1 ⟨M.drop.drop, r.number (.symbol n.trueLabel), v⟩ (pc + 11 + 2)
        ⟨M.drop.drop, r.number (.symbol n.trueLabel), 0⟩ (pc + 14) :=
      leads_block hassign rfl (by show pc + 13 + 1 ≤ maxWord + 1; omega) rfl
    have hne : r.number (.symbol n.endLabel) ≠ BitVec.ofNat 16 (pc + 14) := by
      rw [hE]
      exact ofNat_ne_ofNat (by omega) (by omega) (by omega)
    have skip := leads_jumpTo (c := ⟨M.drop.drop, r.number (.symbol n.trueLabel), 0⟩)
      (by omega) hgoto hne
    have hx : ¬ j.isTaken (Comp.eval v (r.number (.symbol n.trueLabel)) .x) = true := ht
    rw [if_neg hx] at test
    rw [show r.value n.endLabel = BitVec.ofNat 16 (pc + 17) from hE,
      toNat_ofNat_of_le (by omega)] at skip
    have hf : truth (j.isTaken (M.drop.top - M.top)) = 0 := by
      rw [truth, if_neg ht]
    rw [hf]
    exact ⟨11 + 2 + 1 + 2 + 5, 0, 0, by decide,
      (((front.trans test).trans zero).trans skip).trans (back _ 0)⟩

/-- A jump on the value that was on top of the stack. -/
theorem reaches_ifGoto {name : String} {b : Nat} (h : r.HoldsAt pc (popD ++ jumpUnlessZero name))
    (hpc : pc + 7 ≤ maxWord) (hv : r.value name = BitVec.ofNat 16 b) (hm : M.HasValues 1) :
    Reaches r ⟨M, BitVec.ofNat 16 pc⟩
      ⟨M.drop, BitVec.ofNat 16 (if M.top = 0 then pc + 7 else b)⟩ := by
  intro a d
  obtain ⟨hpop, hjump⟩ := Rom.holdsAt_append.1 h
  have front : Leads r 5 ⟨M, a, d⟩ pc ⟨M.drop, M.sp - 1, M.top⟩ (pc + 5) :=
    leads_block hpop rfl (by show pc + 5 ≤ maxWord + 1; omega) (exec_popD hm)
  have hjump : r.HoldsAt (pc + 5) (jumpUnlessZero name) := hjump
  have test := leads_jump (c := ⟨M.drop, M.sp - 1, M.top⟩) (by omega) hjump rfl
    fun hz => by cases hz
  refine ⟨5 + 2, r.value name, M.top, by decide, ?_⟩
  dsimp only
  rw [toNat_ofNat_of_le (by omega)]
  by_cases ht : M.top = 0
  · have hx : ¬ Jump.ne.isTaken (Comp.eval M.top (r.number (.symbol name)) .x) = true := by
      show ¬ (M.top.toInt != 0) = true
      rw [ht]
      decide
    rw [if_neg hx] at test
    rw [if_pos ht, toNat_ofNat_of_le hpc]
    exact front.trans test
  · have hx : Jump.ne.isTaken (Comp.eval M.top (r.number (.symbol name)) .x) = true := by
      show (M.top.toInt != 0) = true
      rw [bne_iff_ne]
      exact fun he => ht (BitVec.toInt_inj.1 he)
    rw [if_pos hx] at test
    rw [if_neg ht, ← hv]
    exact front.trans test

/-- A call opens its frame and jumps to the function; the return address is behind the call. -/
theorem reaches_call {n : Numbering} {name : String} {args b : Nat}
    (h : r.HoldsAt pc (Expansion.call n name args)) (hpc : pc + 49 ≤ maxWord)
    (hv : r.value name = BitVec.ofNat 16 b) (hb : b ≤ maxWord) (hn : b ≠ pc + 47)
    (hm : M.HasRoom 5) :
    Reaches r ⟨M, BitVec.ofNat 16 pc⟩
      ⟨M.openFrame (BitVec.ofNat 16 (pc + 49)) args, BitVec.ofNat 16 b⟩ := by
  rw [Expansion.call_eq, ← List.append_assoc, Rom.holdsAt_append] at h
  have hr : r.value (n.returnLabel name) = BitVec.ofNat 16 (pc + 49) :=
    Rom.value_of_label (lookup_predefined_of_mem (.inl rfl) (dollar_mem_returnLabel n name)) h.2.1
  have hx : ∀ a d, ∃ a' d', exec r (Expansion.openFrame n name args) ⟨M, a, d⟩ =
      some ⟨M.openFrame (BitVec.ofNat 16 (pc + 49)) args, a', d'⟩ := by
    intro a d
    rw [← hr]
    exact exec_openFrame hm n name args
  exact reaches_jumpTo h.1 rfl (by show pc + 47 + 2 ≤ maxWord; omega) hv hb hn hx

/-- Control passes to the word whose address is in a cell. -/
theorem leads_jumpThrough {x : Address} {a d : Word} (h : r.HoldsAt pc (jumpThrough x))
    (hpc : pc + 3 ≤ maxWord + 1) (hx : (r.number x).toNat ≤ maxAddress) :
    Leads r 3 ⟨M, a, d⟩ pc ⟨M, M.read (r.number x), d⟩ (M.read (r.number x)).toNat := by
  obtain ⟨hfollow, hjump⟩ := Rom.holdsAt_append.1 h
  have follow : Leads r 2 ⟨M, a, d⟩ pc ⟨M, M.read (r.number x), d⟩ (pc + 2) :=
    leads_block hfollow rfl (by show pc + 2 ≤ maxWord + 1; omega) (exec_followA hx)
  have hjump : r.HoldsAt (pc + 2) [branch .zero .always] := hjump
  have jump := leads_branch (c := ⟨M, M.read (r.number x), d⟩) (by omega) hjump.1 rfl
  exact follow.trans jump

/-- A return closes its frame and jumps to the word whose address is in cell 15. -/
theorem reaches_ret (h : r.HoldsAt pc Expansion.ret) (hpc : pc + 64 ≤ maxWord)
    (hv : M.HasValues 1) (hf : M.HasFrame) :
    Reaches r ⟨M, BitVec.ofNat 16 pc⟩ ⟨M.closeFrame, M.closeFrame.read 15⟩ := by
  intro a d
  rw [Expansion.ret_eq, Rom.holdsAt_append] at h
  obtain ⟨hclose, hjump⟩ := h
  obtain ⟨a', d', hx⟩ := exec_closeFrame (r := r) (a := a) (d := d) hv hf
  have hr : r.number Register.returnAddress = 15 := r.number_address .r15
  have front : Leads r 61 ⟨M, a, d⟩ pc ⟨M.closeFrame, a', d'⟩ (pc + 61) :=
    leads_block hclose rfl (by show pc + 61 ≤ maxWord + 1; omega) hx
  have hjump : r.HoldsAt (pc + 61) (jumpThrough Register.returnAddress) := hjump
  have jump := leads_jumpThrough (M := M.closeFrame) (a := a') (d := d') hjump (by omega)
    (r.number_address_le _)
  rw [hr] at jump
  refine ⟨61 + 3, M.closeFrame.read 15, d', by decide, ?_⟩
  dsimp only
  rw [toNat_ofNat_of_le (by omega)]
  exact front.trans jump

theorem Reaches.trans {s s₁ s₂ : StackState} (h : Reaches r s s₁) (h' : Reaches r s₁ s₂) :
    Reaches r s s₂ := by
  intro a d
  obtain ⟨k, a₁, d₁, hk, hl⟩ := h a d
  obtain ⟨k', a₂, d₂, hk', hl'⟩ := h' a₁ d₁
  exact ⟨k + k', a₂, d₂, by omega, hl.trans hl'⟩

/-- Arithmetic takes its operands off the stack and puts the result on it. -/
theorem reaches_arithmetic {n : Numbering} {op : ArithmeticOp}
    (h : r.HoldsAt pc (Expansion.arithmetic n op)) (hw : 0 < words (Expansion.arithmetic n op))
    (hpc : pc + words (Expansion.arithmetic n op) ≤ maxWord) (hv : M.HasValues op.arity) :
    Reaches r ⟨M, BitVec.ofNat 16 pc⟩
      ⟨op.apply M, BitVec.ofNat 16 (pc + words (Expansion.arithmetic n op))⟩ := by
  cases op with
  | add =>
    rw [ArithmeticOp.apply, if_neg (by decide), ArithmeticOp.result, BitVec.add_comm]
    exact reaches_block h rfl hw hpc fun a d => ⟨_, _, exec_binary hv rfl⟩
  | sub => exact reaches_block h rfl hw hpc fun a d => ⟨_, _, exec_binary hv rfl⟩
  | neg => exact reaches_block h rfl hw hpc fun a d => ⟨_, _, exec_unary hv rfl⟩
  | not => exact reaches_block h rfl hw hpc fun a d => ⟨_, _, exec_unary hv rfl⟩
  | and =>
    rw [ArithmeticOp.apply, if_neg (by decide), ArithmeticOp.result, BitVec.and_comm]
    exact reaches_block h rfl hw hpc fun a d => ⟨_, _, exec_binary hv rfl⟩
  | or =>
    rw [ArithmeticOp.apply, if_neg (by decide), ArithmeticOp.result, BitVec.or_comm]
    exact reaches_block h rfl hw hpc fun a d => ⟨_, _, exec_binary hv rfl⟩
  | gt =>
    rw [ArithmeticOp.apply, if_neg (by decide)]
    exact reaches_comparison (j := .gt) h hpc hv
  | lt =>
    rw [ArithmeticOp.apply, if_neg (by decide)]
    exact reaches_comparison (j := .lt) h hpc hv
  | eq =>
    have hz : (M.drop.top - M.top == 0) = Jump.eq.isTaken (M.drop.top - M.top) := by
      rw [Bool.eq_iff_iff, beq_iff_eq]
      show _ ↔ ((M.drop.top - M.top).toInt == 0) = true
      rw [beq_iff_eq]
      exact BitVec.toInt_inj.symm
    rw [ArithmeticOp.apply, if_neg (by decide), ArithmeticOp.result, hz]
    exact reaches_comparison (j := .eq) h hpc hv

end

/-! ## One step -/

theorem closed_push (unit : String) (segment : Segment) (i : Nat) :
    closed (Expansion.push unit segment i) = true := by
  cases segment <;> rfl

theorem closed_pop {unit : String} {segment : Segment} {i : Nat} {code : List Instruction}
    (h : Expansion.pop unit segment i = .ok code) : closed code = true := by
  cases segment <;> cases h <;> rfl

theorem closed_zeros (k : Nat) :
    closed (List.replicate k (pushValue (0 : Nat))).flatten = true := by
  induction k with
  | zero => rfl
  | succ k ih =>
    rw [List.replicate_succ, List.flatten_cons]
    exact closed_append rfl ih

namespace Translated

variable {o : Options} {units : List SourceUnit} {p : Program} {M : Memory} {pc : Nat}

theorem add_size_le_maxWord (h : Translated o units p) (hc : p.executableCount ≤ maxWord)
    {q : Piece} (hq : Placed (pieces o units) pc q) : pc + q.size ≤ maxWord := by
  rw [h.executableCount_eq] at hc
  exact Nat.le_trans hq.add_size_le hc

theorem le_maxWord (h : Translated o units p) (hc : p.executableCount ≤ maxWord)
    {q : Piece} (hq : Placed (pieces o units) pc q) : pc ≤ maxWord :=
  Nat.le_trans (Nat.le_add_right _ _) (h.add_size_le_maxWord hc hq)

/-- The code of a command in program memory. -/
theorem holdsAt_command (h : Translated o units p) {s : Site} {n : Numbering}
    (hq : Placed (pieces o units) pc (.command s n)) {code : List Instruction}
    (hx : s.command.expand s.place n = .ok code) :
    (Rom.link p.instructions).HoldsAt pc code ∧ (Piece.command s n).size = words code := by
  have hh := h.holdsAt hq
  rw [code_command hx] at hh
  exact ⟨hh, by rw [Piece.size, code_command hx]⟩

/-- The code of a command without jumps leads to the next piece. -/
theorem reaches_next (h : Translated o units p) (hc : p.executableCount ≤ maxWord) {s : Site}
    {n : Numbering} (hq : Placed (pieces o units) pc (.command s n))
    (hz : 0 < (Piece.command s n).size) {code : List Instruction}
    (hx : s.command.expand s.place n = .ok code) (hs : closed code = true) {M' : Memory}
    (he : ∀ a d, ∃ a' d', exec (Rom.link p.instructions) code ⟨M, a, d⟩ = some ⟨M', a', d'⟩) :
    Reaches (Rom.link p.instructions) ⟨M, BitVec.ofNat 16 pc⟩
      ⟨M', BitVec.ofNat 16 (pc + (Piece.command s n).size)⟩ := by
  have hpc := h.add_size_le_maxWord hc hq
  obtain ⟨hh, hw⟩ := h.holdsAt_command hq hx
  rw [hw] at hz hpc ⊢
  exact reaches_block hh hs hz hpc he

/-- The code of a call, at the end of a piece, leads to the function. -/
theorem reaches_of_call (h : Translated o units p) (hc : p.executableCount ≤ maxWord)
    {n : Numbering} {name : String} {args start : Nat} {q : Piece} {s' : StackState}
    (hq : Placed (pieces o units) pc q) (hstart : pc ≤ start) (hend : start + 49 = pc + q.size)
    (hh : (Rom.link p.instructions).HoldsAt start (Expansion.call n name args))
    (hd : ∃ t ∈ sites units, ∃ locals, t.command = .function name locals)
    (hn : MemoryMap.predefined.lookup name = none)
    (hs : (stackMachine o units (Rom.link p.instructions)).call M (pc + q.size) name args =
      some s') :
    Reaches (Rom.link p.instructions) ⟨M, BitVec.ofNat 16 start⟩ s' := by
  have hpc := h.add_size_le_maxWord hc hq
  obtain ⟨t, k, locals, -, hb⟩ := placed_entry (o := o) (Rom.link p.instructions) hd
  have hside := hq.le_or_add_size_le hb
  rw [← hend] at hs hpc hside
  rw [StackMachine.call] at hs
  split at hs
  · rename_i hroom
    obtain rfl := Option.some.inj hs
    exact reaches_call hh hpc (h.value_entry hd hn) (h.le_maxWord hc hb) (by omega) hroom
  · cases hs

section

variable (h : Translated o units p) (hc : p.executableCount ≤ maxWord) {s : Site} {n : Numbering}
  (hq : Placed (pieces o units) pc (.command s n))

include h hc hq

theorem reaches_of_push {segment : Segment} {i : Nat} {M' : Memory}
    (hcmd : s.command = .push segment i) (hz : 0 < (Piece.command s n).size) (hroom : M.HasRoom 1)
    (hp : (Operand.of (Rom.link p.instructions).value s.place.unit M i segment).push M = some M') :
    Reaches (Rom.link p.instructions) ⟨M, BitVec.ofNat 16 pc⟩
      ⟨M', BitVec.ofNat 16 (pc + (Piece.command s n).size)⟩ := by
  have hx : s.command.expand s.place n = .ok (Expansion.push s.place.unit segment i) := by
    rw [hcmd]
    rfl
  exact h.reaches_next hc hq hz hx (closed_push _ _ _) fun a d => exec_push hroom hp

theorem reaches_of_pop {segment : Segment} {i : Nat} {M' : Memory}
    (hcmd : s.command = .pop segment i) (hz : 0 < (Piece.command s n).size)
    (hvalues : M.HasValues 1)
    (hp : (Operand.of (Rom.link p.instructions).value s.place.unit M i segment).pop M = some M') :
    Reaches (Rom.link p.instructions) ⟨M, BitVec.ofNat 16 pc⟩
      ⟨M', BitVec.ofNat 16 (pc + (Piece.command s n).size)⟩ := by
  cases hx : Expansion.pop s.place.unit segment i with
  | error e =>
    rw [(Expansion.pop_eq_error_iff.1 hx).1] at hp
    cases hp
  | ok code =>
    have he : s.command.expand s.place n = .ok code := by
      rw [hcmd]
      exact hx
    exact h.reaches_next hc hq hz he (closed_pop hx) fun a d => exec_pop hx hvalues hp

theorem reaches_of_arithmetic {op : ArithmeticOp} (hcmd : s.command = .arithmetic op)
    (hz : 0 < (Piece.command s n).size) (hvalues : M.HasValues op.arity) :
    Reaches (Rom.link p.instructions) ⟨M, BitVec.ofNat 16 pc⟩
      ⟨op.apply M, BitVec.ofNat 16 (pc + (Piece.command s n).size)⟩ := by
  have hx : s.command.expand s.place n = .ok (Expansion.arithmetic n op) := by
    rw [hcmd]
    rfl
  have hpc := h.add_size_le_maxWord hc hq
  obtain ⟨hh, hw⟩ := h.holdsAt_command hq hx
  rw [hw] at hpc hz ⊢
  exact reaches_arithmetic hh hz hpc hvalues

/-- A jump that is no jump to itself. -/
theorem reaches_of_goto {name : String} (hcmd : s.command = .goto name)
    (hd : ∃ t ∈ sites units, t.command = .label name ∧ t.place.scope.name = s.place.scope.name)
    (hn : (stackMachine o units (Rom.link p.instructions)).target s.place.scope.name name ≠ pc) :
    Reaches (Rom.link p.instructions) ⟨M, BitVec.ofNat 16 pc⟩ ⟨M, BitVec.ofNat 16
      ((stackMachine o units (Rom.link p.instructions)).target s.place.scope.name name)⟩ := by
  have hx : s.command.expand s.place n = .ok ([] ++ jumpTo (s.place.scope.qualify name)) := by
    rw [hcmd]
    rfl
  have hpc := h.add_size_le_maxWord hc hq
  obtain ⟨hh, hw⟩ := h.holdsAt_command hq hx
  rw [hw] at hpc
  obtain ⟨t, k, -, -, hb⟩ := placed_target (o := o) (Rom.link p.instructions) hd
  exact reaches_jumpTo hh rfl hpc (h.value_target hd) (h.le_maxWord hc hb) hn
    fun a d => ⟨a, d, rfl⟩

theorem reaches_of_ifGoto {name : String} (hcmd : s.command = .ifGoto name)
    (hd : ∃ t ∈ sites units, t.command = .label name ∧ t.place.scope.name = s.place.scope.name)
    (hvalues : M.HasValues 1) :
    Reaches (Rom.link p.instructions) ⟨M, BitVec.ofNat 16 pc⟩ ⟨M.drop, BitVec.ofNat 16
      (if M.top = 0 then pc + (Piece.command s n).size
        else (stackMachine o units (Rom.link p.instructions)).target s.place.scope.name name)⟩ := by
  have hx : s.command.expand s.place n =
      .ok (popD ++ jumpUnlessZero (s.place.scope.qualify name)) := by
    rw [hcmd]
    rfl
  have hpc := h.add_size_le_maxWord hc hq
  obtain ⟨hh, hw⟩ := h.holdsAt_command hq hx
  rw [hw] at hpc ⊢
  exact reaches_ifGoto hh hpc (h.value_target hd) hvalues

/-- The label of a function occupies no word, the zeros of its locals do. -/
theorem reaches_of_function {name : String} {locals : Nat}
    (hcmd : s.command = .function name locals) (hz : 0 < (Piece.command s n).size)
    (hroom : M.HasRoom locals) :
    Reaches (Rom.link p.instructions) ⟨M, BitVec.ofNat 16 pc⟩
      ⟨M.pushZeros locals, BitVec.ofNat 16 (pc + (Piece.command s n).size)⟩ := by
  have hx : s.command.expand s.place n = .ok (Expansion.function name locals) := by
    rw [hcmd]
    rfl
  have hpc := h.add_size_le_maxWord hc hq
  obtain ⟨hh, hw⟩ := h.holdsAt_command hq hx
  rw [hw, Expansion.function, words_label] at hpc hz ⊢
  exact reaches_block hh.2 (closed_zeros _) hz hpc fun a d => exec_zeros hroom

theorem reaches_of_ret (hcmd : s.command = .ret) (hvalues : M.HasValues 1) (hframe : M.HasFrame) :
    Reaches (Rom.link p.instructions) ⟨M, BitVec.ofNat 16 pc⟩
      ⟨M.closeFrame, M.closeFrame.read 15⟩ := by
  have hx : s.command.expand s.place n = .ok Expansion.ret := by
    rw [hcmd]
    rfl
  have hpc := h.add_size_le_maxWord hc hq
  obtain ⟨hh, hw⟩ := h.holdsAt_command hq hx
  rw [hw] at hpc
  exact reaches_ret hh hpc hvalues hframe

end

/-- The machine executes a command as the stack machine carries it out. -/
theorem reaches_of_perform (h : Translated o units p) (ht : TargetsDeclared units)
    (hc : p.executableCount ≤ maxWord) {s : Site} {n : Numbering} {s' : StackState}
    (hq : Placed (pieces o units) pc (.command s n)) (hz : 0 < (Piece.command s n).size)
    (hs : (stackMachine o units (Rom.link p.instructions)).perform M
      (pc + (Piece.command s n).size) s = some s')
    (hn : ∀ name, s.command = .goto name →
      (stackMachine o units (Rom.link p.instructions)).target s.place.scope.name name ≠ pc) :
    Reaches (Rom.link p.instructions) ⟨M, BitVec.ofNat 16 pc⟩ s' := by
  have hm := mem_sites_of_mem_pieces hq.mem
  rw [StackMachine.perform] at hs
  split at hs
  · rename_i segment i hcmd
    split at hs
    · rename_i hroom
      obtain ⟨M', hp, rfl⟩ := Option.map_eq_some_iff.1 hs
      exact h.reaches_of_push hc hq hcmd hz hroom hp
    · cases hs
  · rename_i segment i hcmd
    split at hs
    · rename_i hvalues
      obtain ⟨M', hp, rfl⟩ := Option.map_eq_some_iff.1 hs
      exact h.reaches_of_pop hc hq hcmd hz hvalues hp
    · cases hs
  · rename_i op hcmd
    split at hs
    · rename_i hvalues
      obtain rfl := Option.some.inj hs
      exact h.reaches_of_arithmetic hc hq hcmd hz hvalues
    · cases hs
  · rename_i name hcmd
    have hx : s.command.expand s.place n = .ok [.label (s.place.scope.qualify name)] := by
      rw [hcmd]
      rfl
    -- a label occupies no word, so nothing is ever carried out there
    rw [(h.holdsAt_command hq hx).2] at hz
    exact absurd hz (Nat.lt_irrefl 0)
  · rename_i name hcmd
    obtain rfl := Option.some.inj hs
    exact h.reaches_of_goto hc hq hcmd (ht.label s hm name (.inl hcmd)) (hn name hcmd)
  · rename_i name hcmd
    split at hs
    · rename_i hvalues
      obtain rfl := Option.some.inj hs
      exact h.reaches_of_ifGoto hc hq hcmd (ht.label s hm name (.inr hcmd)) hvalues
    · cases hs
  · rename_i name locals hcmd
    split at hs
    · rename_i hroom
      obtain rfl := Option.some.inj hs
      exact h.reaches_of_function hc hq hcmd hz hroom
    · cases hs
  · rename_i name args hcmd
    have hx : s.command.expand s.place n = .ok (Expansion.call n name args) := by
      rw [hcmd]
      rfl
    obtain ⟨hh, hw⟩ := h.holdsAt_command hq hx
    exact h.reaches_of_call hc hq (Nat.le_refl pc) (by rw [hw]; rfl) hh
      (ht.function s hm name args hcmd) (ht.apart s hm name args hcmd) hs
  · rename_i hcmd
    split at hs
    · rename_i hguard
      obtain rfl := Option.some.inj hs
      exact h.reaches_of_ret hc hq hcmd hguard.1 hguard.2
    · cases hs

/-- Where the bootstrap stands, there is one. -/
theorem appliesTo_of_placed {q : Piece} (hq : q ∈ pieces o units) (hb : q = .bootstrap) :
    o.bootstrap.appliesTo units.length = true := by
  rw [hb] at hq
  cases ha : o.bootstrap.appliesTo units.length with
  | true => rfl
  | false =>
    simp only [pieces, ha, Bool.false_eq_true, if_false, List.nil_append, List.mem_append,
      List.mem_singleton, reduceCtorEq, or_false] at hq
    obtain ⟨s, hs, k, he⟩ := mem_sitePieces hq
    cases he

/-- The bootstrap sets the stack up and calls the entry point. -/
theorem reaches_of_bootstrap (h : Translated o units p) (he : EntryPointDeclared o units)
    (hc : p.executableCount ≤ maxWord) {s' : StackState}
    (hq : Placed (pieces o units) pc .bootstrap)
    (hs : (stackMachine o units (Rom.link p.instructions)).call (M.write 0 256)
      (pc + Piece.bootstrap.size) MemoryMap.entryPoint 0 = some s') :
    Reaches (Rom.link p.instructions) ⟨M, BitVec.ofNat 16 pc⟩ s' := by
  have hpc := h.add_size_le_maxWord hc hq
  have hw : Piece.bootstrap.size = 53 := rfl
  obtain ⟨hput, hcall⟩ := Rom.holdsAt_append.1 (h.holdsAt hq)
  have first : Reaches (Rom.link p.instructions) ⟨M, BitVec.ofNat 16 pc⟩
      ⟨M.write 0 256, BitVec.ofNat 16 (pc + 4)⟩ := by
    refine reaches_block hput rfl (by decide) (by show pc + 4 ≤ maxWord; omega) ?_
    intro a d
    have hx := exec_put (r := Rom.link p.instructions) (M := M) (a := a) (d := d)
      (v := MemoryMap.stackBase) ((Rom.link p.instructions).number_address_le .sp)
    rw [Rom.number_address] at hx
    exact ⟨_, _, hx⟩
  exact first.trans (h.reaches_of_call hc hq (Nat.le_add_right pc 4) (by rw [hw]) hcall
    (he (appliesTo_of_placed hq.mem rfl)) (by decide) hs)

/-- Where the stack machine makes a step and is not at rest, the machine follows. -/
theorem reaches_of_step (h : Translated o units p) (ht : TargetsDeclared units)
    (hc : p.executableCount ≤ maxWord) {s s' : StackState}
    (he : pieceAt? (pieces o units) s.next.toNat = some .bootstrap → EntryPointDeclared o units)
    (hs : (stackMachine o units (Rom.link p.instructions)).step s = some s')
    (hr : (stackMachine o units (Rom.link p.instructions)).rests s = false) :
    Reaches (Rom.link p.instructions) s s' := by
  obtain ⟨M, w⟩ := s
  have hw : (⟨M, w⟩ : StackState) = ⟨M, BitVec.ofNat 16 w.toNat⟩ := by
    rw [BitVec.ofNat_toNat, BitVec.setWidth_eq]
  rw [StackMachine.step] at hs
  rw [StackMachine.rests] at hr
  split at hs
  · cases hs
  · rename_i hp
    rw [hw]
    exact h.reaches_of_bootstrap (he hp) hc (placed_of_pieceAt? hp).1 hs
  · rename_i hp
    rw [hp] at hr
    cases hr
  · rename_i site n hp
    obtain ⟨hq, hz⟩ := placed_of_pieceAt? hp
    rw [hp] at hr
    rw [hw]
    refine h.reaches_of_perform ht hc hq hz hs ?_
    intro name hcmd heq
    simp only [hcmd] at hr
    exact absurd heq (by simpa using hr)

end Translated

end HackVM
