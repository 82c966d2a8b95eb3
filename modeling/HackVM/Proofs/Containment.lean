import HackVM.Proofs.Targets

/-!
# Control stays in the program

A jump takes whatever is in `A`. In an accepted program each jump but that of a return stands
directly behind the load of its target, and no label stands between the two, so that no jump
leads there. Without a bootstrap the last word is the jump of the halt loop, and there are words
behind every label. So a machine that begins at the first word never leaves program memory.
-/

namespace HackVM

open Assembly Instruction Sequence

/-! ## Sealed code -/

/-- Whether the instruction may pass control to the address in `A`. -/
def Assembly.Instruction.isJump : Instruction → Bool
  | compute _ _ (some _) => true
  | _ => false

/-- Code that control neither runs past nor leaves but for a target: each jump stands behind the
load of one, and the last instruction is a jump that is always taken. -/
inductive Sealed (target : String → Prop) : List Instruction → Prop
  | last {name : String} {comp : Comp} :
    target name → Sealed target [load (.symbol name), branch comp .always]
  | jump {name : String} {comp : Comp} {j : Jump} {code : List Instruction} :
    target name → Sealed target code →
      Sealed target (load (.symbol name) :: branch comp j :: code)
  | other {i : Instruction} {code : List Instruction} :
    i.isJump = false → Sealed target code → Sealed target (i :: code)

section

variable {target : String → Prop} {code : List Instruction}

/-- What stands behind a label is sealed, because a label does not part a load from its jump. -/
theorem Sealed.behind_label {front back : List Instruction} {name : String}
    (h : Sealed target code) (hc : code = front ++ label name :: back) : Sealed target back := by
  induction h generalizing front with
  | last _ =>
    have hm : label name ∈ front ++ label name :: back := by simp
    rw [← hc] at hm
    simp [branch] at hm
  | jump _ _ ih =>
    cases front with
    | nil => cases hc
    | cons i front =>
      cases front with
      | nil => cases (List.cons.inj hc).2
      | cons k front => exact ih (List.cons.inj (List.cons.inj hc).2).2
  | other _ hs ih =>
    cases front with
    | nil =>
      cases hc
      exact hs
    | cons i front => exact ih (List.cons.inj hc).2

theorem Sealed.isJump_head {i : Instruction} (h : Sealed target (i :: code)) :
    i.isJump = false := by
  cases h with
  | last _ => rfl
  | jump _ _ => rfl
  | other hi _ => exact hi

/-- Sealed code has a first word, and is sealed from there on. -/
theorem Sealed.exists_executable (h : Sealed target code) :
    ∃ skip i back, code = skip ++ i :: back ∧ words skip = 0 ∧ i.isExecutable = true ∧
      Sealed target (i :: back) := by
  induction h with
  | last ht => exact ⟨[], _, _, rfl, rfl, rfl, .last ht⟩
  | jump ht hs _ => exact ⟨[], _, _, rfl, rfl, rfl, .jump ht hs⟩
  | @other i code hi hs ih =>
    by_cases hx : i.isExecutable = true
    · exact ⟨[], i, code, rfl, rfl, hx, .other hi hs⟩
    · obtain ⟨skip, k, back, rfl, hw, hk, hb⟩ := ih
      refine ⟨i :: skip, k, back, rfl, ?_, hk, hb⟩
      rw [words_cons, hw, if_neg hx]

/-! ## Code that may stand in front -/

/-- Sealed code stays sealed when the code is put in front of it. -/
def Admissible (target : String → Prop) (code : List Instruction) : Prop :=
  ∀ rest, Sealed target rest → Sealed target (code ++ rest)

theorem admissible_append {p q : List Instruction} (hp : Admissible target p)
    (hq : Admissible target q) : Admissible target (p ++ q) := by
  intro rest h
  rw [List.append_assoc]
  exact hp _ (hq _ h)

/-- No instruction is a jump. -/
def isStraight (code : List Instruction) : Bool := code.all fun i => !i.isJump

theorem admissible_of_straight (h : isStraight code = true) : Admissible target code := by
  intro rest hr
  induction code with
  | nil => exact hr
  | cons i code ih =>
    rw [isStraight, List.all_cons, Bool.and_eq_true, Bool.not_eq_true'] at h
    exact .other h.1 (ih h.2)

theorem admissible_jump {name : String} (h : target name) (comp : Comp) (j : Jump) :
    Admissible target [load (.symbol name), branch comp j] := fun _ hr => .jump h hr

theorem admissible_quoted (h : Admissible target code) (o : Options) (t : String) :
    Admissible target (SourceUnit.quoted o t code) := by
  rw [SourceUnit.quoted]
  split
  · exact fun rest hr => .other rfl (h rest hr)
  · exact h

theorem admissible_instructions {ps : List Piece} (h : ∀ q ∈ ps, Admissible target q.code)
    (o : Options) : Admissible target (instructions o ps) := by
  induction ps with
  | nil => exact fun rest hr => hr
  | cons q ps ih =>
    rw [instructions, List.flatMap_cons]
    exact admissible_append (admissible_quoted (h q (by simp)) o q.text)
      (ih fun q' hq => h q' (by simp [hq]))

theorem sealed_haltLoop (h : target haltLabel) (o : Options) :
    Sealed target (instructions o [.halt]) := by
  have hs : Sealed target (Expansion.haltLoop) := .other rfl (.last h)
  rw [instructions, List.flatMap_singleton, SourceUnit.quoted]
  split
  · exact .other rfl hs
  · exact hs

/-! ## Expansions -/

namespace Expansion

theorem isStraight_push (unit : String) (s : Segment) (i : Nat) :
    isStraight (push unit s i) = true := by
  cases s <;> rfl

theorem isStraight_pop {unit : String} {s : Segment} {i : Nat} (h : pop unit s i = .ok code) :
    isStraight code = true := by
  cases s <;> cases h <;> rfl

theorem isStraight_function (name : String) (locals : Nat) :
    isStraight (function name locals) = true := by
  have hz : isStraight (List.replicate locals (pushValue (0 : Nat))).flatten = true := by
    induction locals with
    | zero => rfl
    | succ k ih =>
      rw [List.replicate_succ, List.flatten_cons, isStraight, List.all_append, Bool.and_eq_true]
      exact ⟨rfl, ih⟩
  exact hz

theorem admissible_comparison {n : Numbering} {j : Jump}
    (h : ∀ name ∈ labels (comparison n j), target name) : Admissible target (comparison n j) := by
  have hl : labels (comparison n j) = [n.trueLabel, n.endLabel] := rfl
  have ht : target n.trueLabel := h _ (by simp [hl])
  have he : target n.endLabel := h _ (by simp [hl])
  have hfront : Admissible target (popD ++ popA ++ [subFromA]) := admissible_of_straight rfl
  have htest : Admissible target (testD j n.trueLabel n.endLabel) := fun rest hr =>
    .jump ht (.other rfl (.jump he (.other rfl (.other rfl (.other rfl hr)))))
  exact admissible_append (admissible_append hfront htest) (admissible_of_straight rfl)

theorem admissible_arithmetic {n : Numbering} {op : ArithmeticOp}
    (h : ∀ name ∈ labels (arithmetic n op), target name) :
    Admissible target (arithmetic n op) := by
  cases op with
  | eq | gt | lt => exact admissible_comparison h
  | _ => exact admissible_of_straight rfl

theorem admissible_call {name : String} (h : target name) (n : Numbering) (args : Nat) :
    Admissible target (call n name args) := by
  have hopen : Admissible target (openFrame n name args) := admissible_of_straight rfl
  have hback : Admissible target [label (n.returnLabel name)] := admissible_of_straight rfl
  rw [call_eq]
  exact admissible_append hopen (admissible_append (admissible_jump h _ _) hback)

end Expansion

/-- The code of a command that is no return may stand in front of sealed code, if what it jumps to
are targets. -/
theorem Command.admissible_expand {c : Command} {place : Place} {n : Numbering}
    (h : c.expand place n = .ok code)
    (hown : ∀ name ∈ labels code, '$' ∈ name.toList → target name)
    (hlabel : ∀ name, c = .goto name ∨ c = .ifGoto name → target (place.scope.qualify name))
    (hcall : ∀ name args, c = .call name args → target name) (hr : c ≠ .ret) :
    Admissible target code := by
  cases c with
  | push segment i =>
    cases h
    exact admissible_of_straight (Expansion.isStraight_push _ _ _)
  | pop segment i => exact admissible_of_straight (Expansion.isStraight_pop h)
  | arithmetic op =>
    cases h
    refine Expansion.admissible_arithmetic fun name hm => hown name hm ?_
    rcases Expansion.labels_arithmetic n op name hm with rfl | rfl
    · exact dollar_mem_trueLabel n
    · exact dollar_mem_endLabel n
  | label name =>
    cases h
    exact admissible_of_straight rfl
  | goto name =>
    cases h
    exact admissible_jump (hlabel name (.inl rfl)) _ _
  | ifGoto name =>
    cases h
    exact admissible_append (admissible_of_straight rfl)
      (admissible_jump (hlabel name (.inr rfl)) _ _)
  | function name locals =>
    cases h
    exact admissible_of_straight (Expansion.isStraight_function _ _)
  | call name args =>
    cases h
    exact Expansion.admissible_call (hcall name args rfl) n args
  | ret => exact absurd rfl hr

end

/-! ## The code of a program -/

/-- In program memory the name stands for the address of its label. -/
def Program.Resolves (p : Program) (name : String) : Prop :=
  p.DeclaresAt name ((Rom.link p.instructions).value name).toNat

namespace Translated

variable {o : Options} {units : List SourceUnit} {p : Program}

theorem admissible_code (h : Translated o units p) (hc : p.executableCount ≤ maxWord)
    (hd : TargetsDeclared units) (hr : ∀ s ∈ sites units, s.command ≠ .ret) {s : Site}
    {n : Numbering} (hq : Piece.command s n ∈ pieces o units) :
    Admissible p.Resolves (Piece.command s n).code := by
  have hs := mem_sites_of_mem_pieces hq
  obtain ⟨code, hx⟩ := Command.exists_expand (h.accepted hs).inRange s.place n
  have hcode : (Piece.command s n).code = code := code_command hx
  rw [hcode]
  refine Command.admissible_expand hx ?_ ?_ ?_ (hr s hs)
  · intro name hm hdollar
    refine h.declaresAt_value hc ?_ (lookup_predefined_of_mem (.inl rfl) hdollar)
    rw [h.instructions]
    exact mem_labels_instructions.2 ⟨_, hq, by rwa [hcode]⟩
  · intro name hg
    exact h.declaresAt_value hc (h.mem_labels_of_label (hd.label s hs name hg))
      (lookup_predefined_of_mem (.inl rfl) (dollar_mem_qualify _ _))
  · intro name args hf
    obtain ⟨t, ht, k, hk⟩ := hd.function s hs name args hf
    exact h.declaresAt_value hc (h.mem_labels_of_function ht hk) (hd.apart s hs name args hf)

theorem sealed_instructions (h : Translated o units p) (hb : p.hasBootstrap = false)
    (hc : p.executableCount ≤ maxWord) (hd : TargetsDeclared units)
    (hr : ∀ s ∈ sites units, s.command ≠ .ret) : Sealed p.Resolves p.instructions := by
  have hp : pieces o units = sitePieces (firstNumbering false) (sites units) ++ [.halt] := by
    rw [pieces, ← h.hasBootstrap, hb]
    rfl
  have hhalt : p.Resolves haltLabel := by
    refine h.declaresAt_value hc ?_ lookup_predefined_haltLabel
    rw [h.instructions]
    exact mem_labels_instructions.2 ⟨.halt, by simp [hp], List.mem_singleton_self _⟩
  have hfront : ∀ q ∈ sitePieces (firstNumbering false) (sites units),
      Admissible p.Resolves q.code := by
    intro q hq
    obtain ⟨s, -, n, rfl⟩ := mem_sitePieces hq
    exact h.admissible_code hc hd hr (hp ▸ List.mem_append_left _ hq)
  rw [h.instructions, hp, instructions_append]
  exact admissible_instructions hfront o _ (sealed_haltLoop hhalt o)

end Translated

/-! ## One step -/

namespace Rom

variable {code front back : List Instruction}

/-- The word of an instruction that is no jump is none. -/
theorem code_of_straight {i : Instruction} (h : code = front ++ i :: back)
    (hi : i.isExecutable = true) (hj : i.isJump = false) :
    (∃ w, (link code).code[words front]? = some (.load w)) ∨
      ∃ dest comp, (link code).code[words front]? = some (.compute dest comp none) := by
  cases i with
  | label name => cases hi
  | comment t => cases hi
  | load x => exact .inl ⟨_, code_of_load h⟩
  | compute dest comp j =>
    cases j with
    | some j => cases hj
    | none => exact .inr ⟨dest, comp, code_of_compute h⟩

/-- A word that is no jump passes control on to the next one. -/
theorem pc_perform_of_straight {i : Instruction} (h : code = front ++ i :: back)
    (hi : i.isExecutable = true) (hj : i.isJump = false) {op : Op}
    (hop : (link code).code[words front]? = some op) (m : Machine) :
    (m.perform op).pc = m.pc + 1 := by
  obtain ⟨w, ho⟩ | ⟨dest, comp, ho⟩ := code_of_straight h hi hj
  · rw [ho] at hop
    cases hop
    rfl
  · rw [ho] at hop
    cases hop
    rfl

theorem jump_eq_none_of_straight {i : Instruction} (h : code = front ++ i :: back)
    (hi : i.isExecutable = true) (hj : i.isJump = false) {dest : Option Dest} {comp : Comp}
    {j : Option Jump} (hop : (link code).code[words front]? = some (.compute dest comp j)) :
    j = none := by
  obtain ⟨w, ho⟩ | ⟨dest', comp', ho⟩ := code_of_straight h hi hj
  · rw [ho] at hop
    cases hop
  · rw [ho] at hop
    cases hop
    rfl

/-- The word behind a load. -/
theorem code_behind_load {x : Address} {dest : Option Dest} {comp : Comp} {j : Option Jump}
    (h : code = front ++ .load x :: compute dest comp j :: back) :
    (link code).code[words front + 1]? = some (.compute dest comp j) := by
  have h' : code = (front ++ [.load x]) ++ compute dest comp j :: back := by simp [h]
  have hw : words (front ++ [.load x]) = words front + 1 := by simp
  rw [← hw, code_of_compute h']

end Rom

/-- A step without a fault halts the machine where it is, or performs a word. -/
theorem Machine.step_cases {r : Rom} {m m' : Machine} (h : m.step r = (none, m')) :
    (m'.pc = m.pc ∧ m'.a = m.a) ∨
      ∃ op, r.code[m.pc.toNat]? = some op ∧ m'.pc = (m.perform op).pc ∧
        m'.a = (m.perform op).a := by
  cases hh : r.haltsAt m.pc with
  | true =>
    rw [step_of_haltsAt hh] at h
    cases h
    exact .inl ⟨rfl, rfl⟩
  | false =>
    rw [step_of_not_haltsAt hh] at h
    obtain ⟨op, hop, rfl⟩ := eq_perform_of_execute h
    refine .inr ⟨op, hop, ?_, ?_⟩
    · cases op <;> rfl
    · cases op <;> rfl

theorem Machine.step_ne_pcOutOfRange {r : Rom} {m : Machine} (h : m.pc.toNat < r.size)
    (pc : Word) : (m.step r).1 ≠ some (.pcOutOfRange pc) := by
  have hop : r.code[m.pc.toNat]? = some r.code[m.pc.toNat] := Array.getElem?_eq_getElem h
  intro he
  rw [step] at he
  by_cases hh : r.haltsAt m.pc = true
  · rw [if_pos hh] at he
    cases he
  · rw [if_neg hh, execute, hop] at he
    dsimp only at he
    split at he
    · cases he
    · cases he

/-- Where control may be: at a word from which the code is sealed, or at a jump whose target has
just been loaded. -/
inductive Contained (p : Program) (m : Machine) : Prop
  | next {front back : List Instruction} {i : Instruction} :
    p.instructions = front ++ i :: back → words front = m.pc.toNat → i.isExecutable = true →
      Sealed p.Resolves (i :: back) → Contained p m
  | jump {front back : List Instruction} {name : String} {comp : Comp} {j : Jump} :
    p.instructions = front ++ load (.symbol name) :: branch comp j :: back →
      words front + 1 = m.pc.toNat → m.a = (Rom.link p.instructions).value name →
      p.Resolves name → j = .always ∨ Sealed p.Resolves back → Contained p m

section

variable {p : Program} {m m' : Machine}

theorem contained_of_sealed {front back : List Instruction} (hp : p.instructions = front ++ back)
    (hw : words front = m.pc.toNat) (hs : Sealed p.Resolves back) : Contained p m := by
  obtain ⟨skip, i, rest, rfl, hskip, hi, hrest⟩ := hs.exists_executable
  refine .next (by rw [hp, List.append_assoc]) ?_ hi hrest
  rw [words_append, hskip, hw, Nat.add_zero]

theorem Contained.pc_lt (h : Contained p m) : m.pc.toNat < p.executableCount := by
  cases h with
  | next hp hw hi _ =>
    have hs : p.executableCount = words _ := congrArg words hp
    rw [words_append, words_cons, if_pos hi] at hs
    omega
  | jump hp hw _ _ _ =>
    have hs : p.executableCount = words _ := congrArg words hp
    rw [words_append, words_load, branch, words_compute] at hs
    omega

theorem toNat_pc_succ (h : m.pc.toNat < maxWord) : (m.pc + 1).toNat = m.pc.toNat + 1 := by
  have hm : m.pc.toNat < 65535 := h
  rw [BitVec.toNat_add]
  show (m.pc.toNat + 1) % 65536 = _
  omega

/-- One step keeps control where it may be. -/
theorem Contained.step (hs : Sealed p.Resolves p.instructions) (hc : p.executableCount ≤ maxWord)
    (h : Contained p m) (hm : m.step (Rom.link p.instructions) = (none, m')) :
    Contained p m' := by
  have hnext := toNat_pc_succ (Nat.lt_of_lt_of_le h.pc_lt hc)
  obtain ⟨hpc, ha⟩ | ⟨op, hop, hpc, ha⟩ := Machine.step_cases hm
  · cases h with
    | next hp hw hi hb => exact .next hp (by rw [hw, hpc]) hi hb
    | jump hp hw hv hr hb => exact .jump hp (by rw [hw, hpc]) (by rw [ha, hv]) hr hb
  cases h with
  | @next front back i hp hw hi hb =>
    rw [← hw] at hop
    have hp' : p.instructions = (front ++ [i]) ++ back := by simp [hp]
    cases hb with
    | last ht =>
      rw [Rom.code_of_load hp] at hop
      cases hop
      exact .jump hp (by rw [hpc, Machine.perform, hnext, hw]) ha ht (.inl rfl)
    | jump ht hb =>
      rw [Rom.code_of_load hp] at hop
      cases hop
      exact .jump hp (by rw [hpc, Machine.perform, hnext, hw]) ha ht (.inr hb)
    | other hj hb =>
      refine contained_of_sealed hp' ?_ hb
      rw [words_append, words_cons, words_nil, if_pos hi, hpc, hw, Nat.zero_add, ← hnext,
        Rom.pc_perform_of_straight hp hi hj hop]
  | @jump front back name comp j hp hw hv hr hb =>
    rw [← hw, Rom.code_behind_load hp] at hop
    cases hop
    let v := comp.eval m.d (m.input comp)
    have hgo : m'.pc = if j.isTaken v then m.a else m.pc + 1 := hpc
    by_cases ht : j.isTaken v = true
    · rw [if_pos ht, hv] at hgo
      obtain ⟨before, behind, hl, hwl⟩ := hr
      have hl' : p.instructions = (before ++ [label name]) ++ behind := by simp [hl]
      refine contained_of_sealed hl' ?_ (hs.behind_label hl)
      rw [words_append, words_label, words_nil, hwl, hgo, Nat.add_zero]
    · rw [if_neg ht] at hgo
      have hb' : Sealed p.Resolves back := hb.resolve_left fun hj => ht (by rw [hj]; rfl)
      have hp'' : p.instructions = (front ++ [load (.symbol name), branch comp j]) ++ back := by
        simp [hp]
      refine contained_of_sealed hp'' ?_ hb'
      rw [hgo, hnext, ← hw]
      simp [branch]

end

/-! ## Whole runs -/

theorem Contained.after? {p : Program} {m m' : Machine} {n : Nat}
    (hs : Sealed p.Resolves p.instructions) (hc : p.executableCount ≤ maxWord)
    (h : Contained p m) (hm : m.after? (Rom.link p.instructions) n = some m') :
    Contained p m' := by
  induction n generalizing m with
  | zero =>
    cases hm
    exact h
  | succ n ih =>
    rw [Machine.after?] at hm
    split at hm
    · rename_i m₁ he
      exact ih (h.step hs hc he) hm
    · cases hm

/-- A jump is come to from the load of its target. -/
theorem Contained.loaded {p : Program} {m : Machine} (h : Contained p m) {dest : Option Dest}
    {comp : Comp} {j : Jump}
    (hj : (Rom.link p.instructions).code[m.pc.toNat]? = some (.compute dest comp (some j))) :
    ∃ front name back,
      p.instructions = front ++ load (.symbol name) :: compute dest comp (some j) :: back ∧
        words front + 1 = m.pc.toNat ∧
        (Rom.link p.instructions).code[words front]? = some (.load m.a) := by
  cases h with
  | @next front back i hp hw hi hb =>
    rw [← hw] at hj
    cases Rom.jump_eq_none_of_straight hp hi hb.isJump_head hj
  | @jump front back name comp' j' hp hw hv _ _ =>
    rw [← hw, Rom.code_behind_load hp] at hj
    cases hj
    exact ⟨front, name, back, hp, hw, by rw [Rom.code_of_load hp, hv]; rfl⟩

variable {o : Options} {units : List SourceUnit} {p : Program}

/-- Control never escapes a program that ends in the halt loop. If the source has no `return` and
declares what it jumps to, the machine may start with anything in memory and in its registers:
after any number of steps without a fault it is in program memory, at a jump `A` holds what the
load in front of it has loaded, and the next step does not run past the end. -/
theorem contained_of_translated (h : translate o units = .ok p) (hb : p.hasBootstrap = false)
    (hc : p.executableCount ≤ maxWord) (hd : TargetsDeclared units)
    (hr : ∀ s ∈ sites units, s.command ≠ .ret) :
    ∃ r, Rom.load p.text = .ok r ∧
      ∀ m : Machine, m.pc = 0 → m.state = .running → ∀ n m', m.after? r n = some m' →
        m'.pc.toNat < r.size ∧
        (∀ dest comp j, r.code[m'.pc.toNat]? = some (.compute dest comp (some j)) →
          ∃ front name back,
            p.instructions = front ++ load (.symbol name) :: compute dest comp (some j) :: back ∧
              words front + 1 = m'.pc.toNat ∧ r.code[words front]? = some (.load m'.a)) ∧
        ∀ pc, (m'.step r).1 ≠ some (.pcOutOfRange pc) := by
  have ht := translated_of_translate h
  have hs := ht.sealed_instructions hb hc hd hr
  refine ⟨Rom.link p.instructions, ht.load_text, ?_⟩
  intro m hpc _ n m' hm
  have h₀ : Contained p m := by
    have hp : p.instructions = [] ++ p.instructions := rfl
    exact contained_of_sealed hp (by rw [hpc]; rfl) hs
  have h' := h₀.after? hs hc hm
  have hlt : m'.pc.toNat < (Rom.link p.instructions).size := by
    rw [ht.size_link]
    exact h'.pc_lt
  refine ⟨hlt, fun dest comp j hj => h'.loaded hj, fun pc => ?_⟩
  exact Machine.step_ne_pcOutOfRange hlt pc

/-- A function that calls itself, with a label behind its last word. -/
def recursiveUnit : SourceUnit :=
  ⟨"Main", "function Main.f 0\npush constant 1\nif-goto L\ncall Main.f 0\nlabel L"⟩

/-- The machine that starts with zeros stays in the program, though its stack lies over the
pointers. -/
theorem contained_of_recursiveUnit :
    ∃ p r, translate ⟨true, .auto⟩ [recursiveUnit] = .ok p ∧ Rom.load p.text = .ok r ∧
      ∀ n m, Machine.initial.after? r n = some m → m.pc.toNat < r.size := by
  have hp : ∃ p, translate ⟨true, .auto⟩ [recursiveUnit] = .ok p ∧ p.hasBootstrap = false ∧
      p.executableCount ≤ maxWord := ⟨_, rfl, rfl, by decide⟩
  obtain ⟨p, hp, hb, hc⟩ := hp
  have hd : TargetsDeclared [recursiveUnit] := by decide +kernel
  have hret : ∀ s ∈ sites [recursiveUnit], s.command ≠ .ret := by decide +kernel
  obtain ⟨r, hr, h⟩ := contained_of_translated hp hb hc hd hret
  exact ⟨p, r, hp, hr, fun n m hm => (h Machine.initial rfl rfl n m hm).1⟩

end HackVM
