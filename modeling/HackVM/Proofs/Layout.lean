import HackVM.Proofs.Loading

/-!
# Where the pieces of a program are

A piece occupies as many words as it has executable instructions, and begins where the pieces
in front of it end. Loading keeps this order: from the address of a piece on, program memory
holds the words of the piece, and its labels have the addresses at which they are declared. A
piece never begins inside another one.
-/

namespace HackVM

open Assembly Instruction Sequence

/-! ## Counting words -/

/-- Words of program memory that instructions occupy. -/
def words (code : List Instruction) : Nat := code.countP (·.isExecutable)

@[simp] theorem words_nil : words [] = 0 := rfl

@[simp] theorem words_append (p q : List Instruction) : words (p ++ q) = words p + words q :=
  List.countP_append

theorem words_cons (i : Instruction) (code : List Instruction) :
    words (i :: code) = words code + if i.isExecutable then 1 else 0 := List.countP_cons

@[simp] theorem words_load (a : Address) (code : List Instruction) :
    words (load a :: code) = words code + 1 := words_cons _ _

@[simp] theorem words_compute (dest : Option Dest) (comp : Comp) (jump : Option Jump)
    (code : List Instruction) : words (compute dest comp jump :: code) = words code + 1 :=
  words_cons _ _

@[simp] theorem words_label (name : String) (code : List Instruction) :
    words (label name :: code) = words code := words_cons _ _

@[simp] theorem words_comment (t : String) (code : List Instruction) :
    words (comment t :: code) = words code := words_cons _ _

theorem words_quoted (o : Options) (t : String) (code : List Instruction) :
    words (SourceUnit.quoted o t code) = words code := by
  rw [SourceUnit.quoted]
  split
  · exact words_comment t code
  · rfl

/-! ## The parts of a call -/

namespace Expansion

/-- The part of a call in front of its jump: the frame is saved and the new one begins. -/
def openFrame (n : Numbering) (name : String) (args : Nat) : List Instruction :=
  pushValue (.symbol (n.returnLabel name)) ++
    Register.saved.flatMap (fun r => pushCell r.address) ++
    (fetchD Register.sp ++ setA MemoryMap.frameHeader ++ [subA] ++ setA args ++ [subA] ++
      storeD Register.arg) ++
    move Register.sp Register.lcl

theorem call_eq (n : Numbering) (name : String) (args : Nat) :
    call n name args =
      openFrame n name args ++ (jumpTo name ++ [label (n.returnLabel name)]) := by
  simp only [call, openFrame, List.append_assoc]

/-- The part of a return in front of its jump: the return address, the return value, the pointers
of the caller, the stack pointer. -/
def closeFrame : List Instruction :=
  (fetchD Register.lcl ++ setA MemoryMap.frameHeader ++ [subA] ++
    storeD Register.returnAddress ++ followD Register.returnAddress ++
    storeD Register.returnAddress) ++
  (move Register.arg Register.frameBase ++ popD ++ storeDThrough Register.frameBase) ++
  move Register.lcl Register.sp ++
  Register.saved.reverse.flatMap (fun r => popCell r.address) ++
  (move Register.frameBase Register.sp ++ increment Register.sp)

theorem ret_eq : ret = closeFrame ++ jumpThrough Register.returnAddress := by
  simp only [ret, closeFrame, List.append_assoc]

theorem words_openFrame (n : Numbering) (name : String) (args : Nat) :
    words (openFrame n name args) = 47 := rfl

end Expansion

/-! ## Code in program memory -/

namespace Rom

/-- The number that stands for a symbol in program memory. -/
def value (r : Rom) (name : String) : Word := BitVec.ofNat 16 (resolve r.labels r.cells name)

/-- The number that an address instruction loads. -/
def number (r : Rom) : Address → Word
  | .value n => BitVec.ofNat 16 n
  | .symbol name => r.value name

/-- From `pc` on program memory holds the words of the code, and there are its labels. -/
def HoldsAt (r : Rom) (pc : Nat) : List Instruction → Prop
  | [] => True
  | .load a :: code => r.code[pc]? = some (.load (r.number a)) ∧ r.HoldsAt (pc + 1) code
  | .compute dest comp jump :: code =>
    r.code[pc]? = some (.compute dest comp jump) ∧ r.HoldsAt (pc + 1) code
  | .label name :: code => r.labelAddress? name = some pc ∧ r.HoldsAt pc code
  | .comment _ :: code => r.HoldsAt pc code

theorem holdsAt_append {r : Rom} {pc : Nat} {p q : List Instruction} :
    r.HoldsAt pc (p ++ q) ↔ r.HoldsAt pc p ∧ r.HoldsAt (pc + words p) q := by
  induction p generalizing pc with
  | nil => simp [HoldsAt]
  | cons i p ih =>
    cases i with
    | load a =>
      have hw : pc + words (.load a :: p) = pc + 1 + words p := by
        rw [words_load]
        omega
      rw [List.cons_append, HoldsAt, HoldsAt, ih, hw, and_assoc]
    | compute dest comp jump =>
      have hw : pc + words (.compute dest comp jump :: p) = pc + 1 + words p := by
        rw [words_compute]
        omega
      rw [List.cons_append, HoldsAt, HoldsAt, ih, hw, and_assoc]
    | label name => rw [List.cons_append, HoldsAt, HoldsAt, ih, words_label, and_assoc]
    | comment t => rw [List.cons_append, HoldsAt, HoldsAt, ih, words_comment]

theorem holdsAt_quoted {r : Rom} {pc : Nat} {o : Options} {t : String} {code : List Instruction} :
    r.HoldsAt pc (SourceUnit.quoted o t code) ↔ r.HoldsAt pc code := by
  rw [SourceUnit.quoted]
  split
  · exact Iff.rfl
  · exact Iff.rfl

/-! ## What linking puts where -/

theorem labelsFrom_append (n : Nat) (p q : List Instruction) :
    labelsFrom n (p ++ q) = labelsFrom n p ++ labelsFrom (n + words p) q := by
  induction p generalizing n with
  | nil => rfl
  | cons i p ih =>
    cases i with
    | label name => rw [List.cons_append, labelsFrom, labelsFrom, ih, words_label, List.cons_append]
    | comment t =>
      show labelsFrom n (p ++ q) = labelsFrom n p ++ _
      rw [ih, words_comment]
    | load a =>
      show labelsFrom (n + 1) (p ++ q) = labelsFrom (n + 1) p ++ _
      rw [ih, words_load, show n + 1 + words p = n + (words p + 1) by omega]
    | compute dest comp jump =>
      show labelsFrom (n + 1) (p ++ q) = labelsFrom (n + 1) p ++ _
      rw [ih, words_compute, show n + 1 + words p = n + (words p + 1) by omega]

/-- A name that is not declared has no address. -/
theorem lookup_labelsFrom_eq_none {n : Nat} {code : List Instruction} {name : String}
    (h : name ∉ Instruction.labels code) : (labelsFrom n code).lookup name = none := by
  rw [List.lookup_eq_none_iff]
  intro e he
  have hm : e.1 ∈ Instruction.labels code := by
    rw [← map_fst_labelsFrom n code]
    exact List.mem_map_of_mem he
  have hne : name ≠ e.1 := fun heq => h (heq ▸ hm)
  simpa using hne

theorem labelAddress?_link {p q : List Instruction} {name : String}
    (h : (Instruction.labels (p ++ label name :: q)).Nodup) :
    (link (p ++ label name :: q)).labelAddress? name = some (words p) := by
  have hp : name ∉ Instruction.labels p := by
    rw [labels_append] at h
    intro hm
    exact (List.nodup_append.1 h).2.2 name hm name (by simp [Instruction.labels, declared?]) rfl
  show (labelsFrom 0 (p ++ label name :: q)).lookup name = some (words p)
  rw [labelsFrom_append, List.lookup_append, lookup_labelsFrom_eq_none hp, labelsFrom]
  simp

/-- The word of an executable instruction is where the instructions in front of it end. -/
theorem code_link {p q : List Instruction} {i : Instruction} (hi : i.isExecutable = true) :
    let r := link (p ++ i :: q)
    r.code[words p]? = op? (resolve r.labels r.cells) i := by
  intro r
  let f := op? (resolve r.labels r.cells)
  obtain ⟨w, hw⟩ : ∃ w, f i = some w := by
    rw [← Option.isSome_iff_exists, isSome_op?]
    exact hi
  have hp : (p.filterMap f).length = words p := by
    rw [List.length_filterMap_eq_countP, words]
    exact List.countP_congr fun j _ => by rw [isSome_op?]
  show ((p ++ i :: q).filterMap f).toArray[words p]? = f i
  rw [List.getElem?_toArray, List.filterMap_append, ← hp,
    List.getElem?_append_right (Nat.le_refl _),
    Nat.sub_self, List.filterMap_cons_some hw, hw]
  rfl

theorem code_of_load {code front back : List Instruction} {x : Address}
    (h : code = front ++ .load x :: back) :
    (link code).code[words front]? = some (.load ((link code).number x)) := by
  rw [h, code_link rfl]
  cases x with
  | value n => rfl
  | symbol name => rfl

theorem code_of_compute {code front back : List Instruction} {dest : Option Dest} {comp : Comp}
    {j : Option Jump} (h : code = front ++ compute dest comp j :: back) :
    (link code).code[words front]? = some (.compute dest comp j) := by
  rw [h, code_link rfl]
  rfl

/-- The program memory of a program holds each stretch of it behind the stretch before. -/
theorem holdsAt_link {p q : List Instruction} (h : (Instruction.labels (p ++ q)).Nodup) :
    (link (p ++ q)).HoldsAt (words p) q := by
  induction q generalizing p with
  | nil => trivial
  | cons i q ih =>
    have hs : p ++ i :: q = (p ++ [i]) ++ q := by simp
    have ht : (link (p ++ i :: q)).HoldsAt (words p + words [i]) q := by
      rw [hs, ← words_append]
      exact ih (hs ▸ h)
    cases i with
    | load a => exact ⟨code_of_load rfl, ht⟩
    | compute dest comp jump => exact ⟨code_of_compute rfl, ht⟩
    | label name => exact ⟨labelAddress?_link h, ht⟩
    | comment t => exact ht

end Rom

/-! ## Places of pieces -/

def Piece.size (q : Piece) : Nat := words q.code

/-- Words that pieces occupy together. -/
def extent : List Piece → Nat
  | [] => 0
  | q :: ps => q.size + extent ps

/-- The piece is one of the pieces, with `a` words in front of it. -/
def Placed (ps : List Piece) (a : Nat) (q : Piece) : Prop :=
  ∃ front back, ps = front ++ q :: back ∧ extent front = a

@[simp] theorem extent_nil : extent [] = 0 := rfl

@[simp] theorem extent_cons (q : Piece) (ps : List Piece) :
    extent (q :: ps) = q.size + extent ps := rfl

@[simp] theorem extent_append (ps qs : List Piece) :
    extent (ps ++ qs) = extent ps + extent qs := by
  induction ps with
  | nil => exact (Nat.zero_add _).symm
  | cons q ps ih => rw [List.cons_append, extent_cons, extent_cons, ih, Nat.add_assoc]

theorem words_instructions (o : Options) (ps : List Piece) :
    words (instructions o ps) = extent ps := by
  induction ps with
  | nil => rfl
  | cons q ps ih =>
    rw [instructions, List.flatMap_cons, words_append, words_quoted, extent_cons]
    exact congrArg (q.size + ·) ih

namespace Placed

variable {ps : List Piece} {a b : Nat} {q q' : Piece}

theorem mem (h : Placed ps a q) : q ∈ ps := by
  obtain ⟨front, back, rfl, -⟩ := h
  simp

theorem add_size_le (h : Placed ps a q) : a + q.size ≤ extent ps := by
  obtain ⟨front, back, rfl, rfl⟩ := h
  rw [extent_append, extent_cons]
  omega

/-- No piece begins inside another one. -/
theorem le_or_add_size_le (h : Placed ps a q) (h' : Placed ps b q') :
    b ≤ a ∨ a + q.size ≤ b := by
  obtain ⟨front, back, rfl, rfl⟩ := h
  obtain ⟨front', back', he, rfl⟩ := h'
  rcases List.append_eq_append_iff.1 he with ⟨mid, hf, hb⟩ | ⟨mid, hf, hb⟩
  · cases mid with
    | nil =>
      left
      exact Nat.le_of_eq (by rw [hf, List.append_nil])
    | cons c mid =>
      right
      have hc : c = q := (List.cons.inj hb).1.symm
      rw [hf, hc, extent_append, extent_cons]
      omega
  · left
    rw [hf, extent_append]
    omega

theorem cons (h : Placed ps a q) (c : Piece) : Placed (c :: ps) (c.size + a) q := by
  obtain ⟨front, back, rfl, rfl⟩ := h
  exact ⟨c :: front, back, rfl, extent_cons c front⟩

end Placed

/-- The piece that begins at an address and is not empty. -/
def pieceAt? : List Piece → Nat → Option Piece
  | [], _ => none
  | q :: ps, a =>
    if a < q.size then (if a = 0 then some q else none) else pieceAt? ps (a - q.size)

theorem placed_of_pieceAt? {ps : List Piece} {a : Nat} {q : Piece} (h : pieceAt? ps a = some q) :
    Placed ps a q ∧ 0 < q.size := by
  induction ps generalizing a with
  | nil => cases h
  | cons c ps ih =>
    rw [pieceAt?] at h
    by_cases ha : a < c.size
    · rw [if_pos ha] at h
      by_cases hz : a = 0
      · rw [if_pos hz] at h
        cases h
        exact ⟨⟨[], ps, rfl, hz.symm⟩, by omega⟩
      · rw [if_neg hz] at h
        cases h
    · rw [if_neg ha] at h
      obtain ⟨hp, hs⟩ := ih h
      have hc := hp.cons c
      rw [show c.size + (a - c.size) = a by omega] at hc
      exact ⟨hc, hs⟩

/-- Words in front of the first piece with a property, or of the end if there is none. -/
def positionOf (ps : List Piece) (sel : Piece → Bool) : Nat :=
  extent (ps.takeWhile fun q => !sel q)

theorem exists_placed_positionOf {ps : List Piece} {sel : Piece → Bool}
    (h : ∃ q ∈ ps, sel q = true) : ∃ q, sel q = true ∧ Placed ps (positionOf ps sel) q := by
  induction ps with
  | nil => simp at h
  | cons c ps ih =>
    by_cases hc : sel c = true
    · refine ⟨c, hc, [], ps, rfl, ?_⟩
      rw [positionOf, List.takeWhile_cons_of_neg (by simp [hc])]
    · obtain ⟨q, hq, hs⟩ := h
      have hq' : q ∈ ps := by
        rcases List.mem_cons.1 hq with rfl | hq
        · exact absurd hs hc
        · exact hq
      obtain ⟨q, hs, hp⟩ := ih ⟨q, hq', hs⟩
      refine ⟨q, hs, ?_⟩
      rw [positionOf, List.takeWhile_cons_of_pos (by simp [hc]), extent_cons]
      exact hp.cons c

/-! ## Pieces in program memory -/

namespace Translated

variable {o : Options} {units : List SourceUnit} {p : Program} {a : Nat} {q : Piece}

theorem executableCount_eq (h : Translated o units p) :
    p.executableCount = extent (pieces o units) := by
  rw [← words_instructions o, ← h.instructions]
  rfl

/-- Program memory holds each piece at its place. -/
theorem holdsAt (h : Translated o units p) (hq : Placed (pieces o units) a q) :
    (Rom.link p.instructions).HoldsAt a q.code := by
  obtain ⟨front, back, hs, rfl⟩ := hq
  have hi : p.instructions = HackVM.instructions o front ++ HackVM.instructions o (q :: back) := by
    rw [h.instructions, hs, instructions_append]
  have hn := h.labels_nodup
  rw [hi] at hn ⊢
  have hl := Rom.holdsAt_link hn
  rw [words_instructions, show HackVM.instructions o (q :: back) =
      SourceUnit.quoted o q.text q.code ++ HackVM.instructions o back from rfl,
    Rom.holdsAt_append, Rom.holdsAt_quoted] at hl
  exact hl.1

end Translated

end HackVM
