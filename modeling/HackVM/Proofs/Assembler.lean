import HackVM.Proofs.Targets
import HackVM.Proofs.Variables
import Mathlib.Data.List.Forall2

/-!
# Loading assembly

Loading reads the lines of a text, then compares the labels, and then gives the symbols their
numbers. What it answers is told here without the computation: the first line that holds no
instruction, or else the first label that is declared again, or else a program memory. In program
memory the executable instructions stand in order, a label has the number of words in front of
it, and the symbols that are neither predefined nor labels have the cells from `firstVariable` on,
in the order in which they are first used.
-/

namespace HackVM

open Assembly Instruction Text

/-! ## Lines -/

/-- What is left of a line of assembly without its comment. -/
def contents (line : List Char) : List Char := trim (SourceLine.code line)

/-- The lines with something left read as this code, one instruction each. -/
inductive ReadsLines : List (List Char) → List Instruction → Prop
  | nil : ReadsLines [] []
  | blank {line : List Char} {lines : List (List Char)} {code : List Instruction} :
    contents line = [] → ReadsLines lines code → ReadsLines (line :: lines) code
  | cons {line : List Char} {lines : List (List Char)} {i : Instruction}
    {code : List Instruction} : contents line ≠ [] →
    Instruction.read (String.ofList (contents line)) = .ok i → ReadsLines lines code →
    ReadsLines (line :: lines) (i :: code)

/-- If the first line has the number `n`, line `k` is the first one that does not read. -/
inductive RejectsLine : Nat → List (List Char) → Nat → ReadError → Prop
  | here {n : Nat} {line : List Char} {lines : List (List Char)} {e : ReadError} :
    contents line ≠ [] → Instruction.read (String.ofList (contents line)) = .error e →
    RejectsLine n (line :: lines) n e
  | blank {n k : Nat} {line : List Char} {lines : List (List Char)} {e : ReadError} :
    contents line = [] → RejectsLine (n + 1) lines k e → RejectsLine n (line :: lines) k e
  | cons {n k : Nat} {line : List Char} {lines : List (List Char)} {i : Instruction}
    {e : ReadError} : contents line ≠ [] →
    Instruction.read (String.ofList (contents line)) = .ok i → RejectsLine (n + 1) lines k e →
    RejectsLine n (line :: lines) k e

/-- The code that a text holds. -/
def HoldsCode (text : String) (code : List Instruction) : Prop :=
  ReadsLines (lines text.toList) code

namespace Rom

/-- The instructions on lines that are numbered from `n` on. -/
def readFrom (n : Nat) (lines : List (List Char)) : Except LoadError (List Instruction) :=
  ((lines.zipIdx n).filterMap fun l => SourceLine.ofLine? l.2 l.1).mapM fun l =>
    (Instruction.read l.text).mapError (.read l.number)

theorem readLines_eq (text : String) : readLines text = readFrom 1 (lines text.toList) := rfl

theorem readFrom_blank {n : Nat} {line : List Char} (h : contents line = [])
    (lines : List (List Char)) : readFrom n (line :: lines) = readFrom (n + 1) lines := by
  have hl : SourceLine.ofLine? n line = none := if_pos (List.isEmpty_iff.2 h)
  simp only [readFrom, List.zipIdx_cons, List.filterMap_cons, hl]

theorem readFrom_cons {n : Nat} {line : List Char} (h : contents line ≠ [])
    (lines : List (List Char)) :
    readFrom n (line :: lines) =
      (Instruction.read (String.ofList (contents line))).mapError (.read n) >>= fun i =>
        readFrom (n + 1) lines >>= fun code => pure (i :: code) := by
  have hl : SourceLine.ofLine? n line = some ⟨n, String.ofList (contents line)⟩ :=
    if_neg fun he => h (List.isEmpty_iff.1 he)
  simp only [readFrom, List.zipIdx_cons, List.filterMap_cons, hl, List.mapM_cons]

theorem readFrom_of_readsLines {n : Nat} {lines : List (List Char)} {code : List Instruction}
    (h : ReadsLines lines code) : readFrom n lines = .ok code := by
  induction h generalizing n with
  | nil => rfl
  | blank hc _ ih => rw [readFrom_blank hc, ih]
  | cons hc hr _ ih =>
    rw [readFrom_cons hc, hr, ih]
    rfl

theorem readFrom_of_rejectsLine {n k : Nat} {lines : List (List Char)} {e : ReadError}
    (h : RejectsLine n lines k e) : readFrom n lines = .error (.read k e) := by
  induction h with
  | here hc hr =>
    rw [readFrom_cons hc, hr]
    rfl
  | blank hc _ ih => rw [readFrom_blank hc, ih]
  | cons hc hr _ ih =>
    rw [readFrom_cons hc, hr, ih]
    rfl

end Rom

/-- All lines read, or there is a first one that does not. -/
theorem readsLines_or_rejectsLine (n : Nat) (lines : List (List Char)) :
    (∃ code, ReadsLines lines code) ∨ ∃ k e, RejectsLine n lines k e := by
  induction lines generalizing n with
  | nil => exact .inl ⟨[], .nil⟩
  | cons line lines ih =>
    by_cases hc : contents line = []
    · rcases ih (n + 1) with ⟨code, h⟩ | ⟨k, e, h⟩
      · exact .inl ⟨code, .blank hc h⟩
      · exact .inr ⟨k, e, .blank hc h⟩
    · cases hr : Instruction.read (String.ofList (contents line)) with
      | error e => exact .inr ⟨n, e, .here hc hr⟩
      | ok i =>
        rcases ih (n + 1) with ⟨code, h⟩ | ⟨k, e, h⟩
        · exact .inl ⟨i :: code, .cons hc hr h⟩
        · exact .inr ⟨k, e, .cons hc hr h⟩

/-! ## Instructions as they are read -/

namespace Assembly.Instruction

theorem wellFormed_of_readLabel {line rest : List Char} {i : Instruction}
    (h : readLabel line rest = .ok i) : i.WellFormed := by
  rw [readLabel] at h
  split at h
  · cases h
  · split at h
    · rename_i hs
      cases h
      rwa [WellFormed, isSymbol, String.toList_ofList]
    · cases h

theorem wellFormed_of_readLoad {line operand : List Char} {i : Instruction}
    (h : readLoad line operand = .ok i) : i.WellFormed := by
  rw [readLoad] at h
  split at h
  · split at h
    · cases h
    · split at h
      · rename_i hn
        cases h
        exact hn
      · cases h
  · split at h
    · rename_i hs
      cases h
      show isSymbol (String.ofList operand) = true
      rwa [isSymbol, String.toList_ofList]
    · cases h

theorem wellFormed_of_readCompute {line : List Char} {i : Instruction}
    (h : readCompute line = .ok i) : i.WellFormed := by
  rw [readCompute] at h
  obtain ⟨⟨dest, rest⟩, -, h⟩ := bind_eq_ok_iff.1 h
  obtain ⟨⟨field, jump⟩, -, h⟩ := bind_eq_ok_iff.1 h
  dsimp only at h
  by_cases hn : (dest.isNone && jump.isNone) = true
  · rw [if_pos hn] at h
    cases h
  · rw [if_neg hn] at h
    obtain ⟨comp, -, h⟩ := bind_eq_ok_iff.1 h
    cases h
    exact Bool.eq_false_iff.2 hn

/-- What is read is well formed. -/
theorem wellFormed_of_read {line : String} {i : Instruction} (h : Instruction.read line = .ok i) :
    i.WellFormed := by
  rw [Instruction.read, readTrimmed.eq_def] at h
  split at h
  · cases h
    rw [WellFormed, String.toList_ofList]
    exact trim_isTrimmed _
  · exact wellFormed_of_readLabel h
  · exact wellFormed_of_readLoad h
  · exact wellFormed_of_readCompute h

end Assembly.Instruction

theorem ReadsLines.wellFormed {lines : List (List Char)} {code : List Instruction}
    (h : ReadsLines lines code) : ∀ i ∈ code, i.WellFormed := by
  induction h with
  | nil => simp
  | blank _ _ ih => exact ih
  | cons _ hr _ ih => exact List.forall_mem_cons.2 ⟨wellFormed_of_read hr, ih⟩

/-! ## Words -/

/-- The executable instructions become words one by one. -/
theorem forall₂_becomes {value : String → Nat} {code : List Instruction}
    (hw : ∀ i ∈ code, i.WellFormed) :
    List.Forall₂ (Becomes fun name => BitVec.ofNat 16 (value name))
      (code.filter (·.isExecutable)) (code.filterMap (Rom.op? value)) := by
  induction code with
  | nil => exact .nil
  | cons i code ih =>
    have hrest := ih fun j hj => hw j (List.mem_cons_of_mem i hj)
    have hs := Rom.isSome_op? value i
    cases ho : Rom.op? value i with
    | none =>
      rw [ho] at hs
      rwa [List.filterMap_cons_none ho, List.filter_cons_of_neg (by rw [← hs]; decide)]
    | some w =>
      rw [ho] at hs
      rw [List.filterMap_cons_some ho, List.filter_cons_of_pos hs.symm]
      exact .cons (becomes_of_op? (hw i (List.mem_cons_self ..)) ho) hrest

/-! ## Variables -/

/-- The name first stands in the list behind `i` different ones. -/
def FirstAt (l : List String) (i : Nat) (name : String) : Prop :=
  ∃ front back, l = front ++ name :: back ∧ name ∉ front ∧ front.eraseDups.length = i

theorem getElem?_eraseDups_of_first {front back : List String} {name : String}
    (h : name ∉ front) :
    (front ++ name :: back).eraseDups[front.eraseDups.length]? = some name := by
  rw [List.eraseDups_append, List.cons_removeAll, if_pos (by simpa using h), List.eraseDups_cons,
    List.getElem?_append_right (Nat.le_refl _), Nat.sub_self]
  rfl

/-- Without repetitions each name stands at its first place. -/
theorem getElem?_eraseDups_iff {l : List String} {i : Nat} {name : String} :
    l.eraseDups[i]? = some name ↔ FirstAt l i name := by
  constructor
  · intro h
    obtain ⟨front, back, rfl, hf⟩ :=
      List.eq_append_cons_of_mem (List.mem_eraseDups.1 (List.mem_of_getElem? h))
    refine ⟨front, back, rfl, hf, ?_⟩
    -- the name is also at the place of its first use, and no name is at two places
    have hi := (List.getElem?_eq_some_iff.1 h).1
    exact ((List.getElem?_inj hi (nodup_eraseDups _)).1
      (h.trans (getElem?_eraseDups_of_first hf).symm)).symm
  · rintro ⟨front, back, rfl, hf, rfl⟩
    exact getElem?_eraseDups_of_first hf

/-- The symbols that code uses and that are neither predefined nor labels of it, in order. -/
def freeSymbols (code : List Instruction) : List String :=
  uses (fun name => (MemoryMap.predefined.lookup name).isNone && !(labels code).contains name) code

namespace Rom

theorem variableNames_link (code : List Instruction) :
    variableNames (labelsFrom 0 code) code = (freeSymbols code).eraseDups := by
  have hk : (fun name => (known? (labelsFrom 0 code) name).isNone) = fun name =>
      (MemoryMap.predefined.lookup name).isNone && !(Instruction.labels code).contains name := by
    funext name
    rw [Bool.eq_iff_iff, Option.isNone_iff_eq_none, known?_eq_none_iff]
    simp
  rw [variableNames, hk]
  rfl

theorem lookup_placeVariables_iff {names : List String} (h : names.Nodup) {name : String}
    {c : Nat} :
    (placeVariables names).lookup name = some c ↔
      ∃ i, names[i]? = some name ∧ MemoryMap.firstVariable + i = c := by
  constructor
  · intro hc
    obtain ⟨hle, hi⟩ := placeVariables_spec hc
    exact ⟨_, hi, Nat.add_sub_cancel' hle⟩
  · rintro ⟨i, hi, rfl⟩
    obtain ⟨c, hc⟩ := exists_lookup_placeVariables (List.mem_of_getElem? hi)
    obtain ⟨hle, hj⟩ := placeVariables_spec hc
    have hij := (List.getElem?_inj (List.getElem?_eq_some_iff.1 hi).1 h).1 (hi.trans hj.symm)
    rw [hc, hij, Nat.add_sub_cancel' hle]

/-- The variables of code are its free symbols, in the order in which they are first used. -/
theorem variableAddress?_link_iff {code : List Instruction} {name : String} {c : Nat} :
    (link code).variableAddress? name = some c ↔
      ∃ i, FirstAt (freeSymbols code) i name ∧ MemoryMap.firstVariable + i = c := by
  show (placeVariables (variableNames (labelsFrom 0 code) code)).lookup name = some c ↔ _
  rw [variableNames_link, lookup_placeVariables_iff (nodup_eraseDups _)]
  simp only [getElem?_eraseDups_iff]

/-! ## Program memory -/

/-- The number of a symbol: its predefined value, or else the address of its label, or else that
of its variable. -/
inductive Resolves (r : Rom) (name : String) : Nat → Prop
  | predefined {a : Nat} : MemoryMap.predefined.lookup name = some a → Resolves r name a
  | label {a : Nat} : MemoryMap.predefined.lookup name = none →
    r.labelAddress? name = some a → Resolves r name a
  | variable {a : Nat} : MemoryMap.predefined.lookup name = none →
    r.labelAddress? name = none → r.variableAddress? name = some a → Resolves r name a

/-- What program memory is for code: its words are those of the executable instructions in order,
its labels are the declared ones, each with the number of words in front of it, and its variables
are the free symbols, which take one cell after the other. -/
structure Assembles (r : Rom) (code : List Instruction) : Prop where
  words : List.Forall₂ (Becomes r.value) (code.filter (·.isExecutable)) r.code.toList
  symbols : ∀ name, Instruction.load (.symbol name) ∈ code → r.Resolves name (r.value name).toNat
  labels : ∀ name a, r.labelAddress? name = some a ↔
    ∃ front back, code = front ++ label name :: back ∧ HackVM.words front = a
  cells : ∀ name a, r.variableAddress? name = some a ↔
    ∃ i, FirstAt (freeSymbols code) i name ∧ MemoryMap.firstVariable + i = a

end Rom

theorem MemoryMap.predefined_le : ∀ e ∈ predefined, e.2 ≤ maxWord := by decide

namespace Rom

theorem resolves_link {code : List Instruction} (hl : (Instruction.labels code).Nodup)
    (hw : HackVM.words code ≤ maxWord) (hv : (freeSymbols code).eraseDups.length < 65520)
    {name : String} (hn : Instruction.load (.symbol name) ∈ code) :
    (link code).Resolves name ((link code).value name).toNat := by
  cases hp : MemoryMap.predefined.lookup name with
  | some a =>
    rw [value_of_predefined hp,
      toNat_ofNat_of_le (MemoryMap.predefined_le (name, a) (mem_of_lookup hp))]
    exact .predefined hp
  | none =>
    cases hla : (link code).labelAddress? name with
    | some a =>
      obtain ⟨front, back, rfl, rfl⟩ := (labelAddress?_link_iff hl).1 hla
      rw [words_append] at hw
      rw [value_of_label hp hla, toNat_ofNat_of_le (by omega)]
      exact .label hp hla
    | none =>
      obtain ⟨a, ha, -⟩ := exists_variableAddress? hn hp hla
      obtain ⟨i, hi, rfl⟩ := variableAddress?_link_iff.1 ha
      have hlt := (List.getElem?_eq_some_iff.1 (getElem?_eraseDups_iff.2 hi)).1
      have hle : MemoryMap.firstVariable + i ≤ maxWord := by
        show 16 + i ≤ 65535
        omega
      rw [value_of_variable hp hla ha, toNat_ofNat_of_le hle]
      exact .variable hp hla ha

theorem assembles_link {code : List Instruction} (hc : ∀ i ∈ code, i.WellFormed)
    (hl : (Instruction.labels code).Nodup) (hw : HackVM.words code ≤ maxWord)
    (hv : (freeSymbols code).eraseDups.length < 65520) : (link code).Assembles code where
  words := forall₂_becomes hc
  symbols _ hn := resolves_link hl hw hv hn
  labels _ _ := labelAddress?_link_iff hl
  cells _ _ := variableAddress?_link_iff

end Rom

/-! ## The whole loader -/

/-- The name repeats one in front of it, and nothing in front of it does. -/
def FirstRepeat (names : List String) (name : String) : Prop :=
  ∃ front back, names = front ++ name :: back ∧ name ∈ front ∧ front.Nodup

namespace Rom

theorem load_of_holdsCode {text : String} {code : List Instruction} (h : HoldsCode text code) :
    load text =
      match firstRepeated (Instruction.labels code) with
      | some name => .error (.duplicateLabel name)
      | none => .ok (link code) := by
  rw [load, readLines_eq, readFrom_of_readsLines h]
  show Except.bind (.ok code) _ = _
  cases hr : firstRepeated (Instruction.labels code) with
  | some name =>
    simp only [Except.bind, hr]
    rfl
  | none =>
    simp only [Except.bind, hr]
    rfl

theorem load_of_rejectsLine {text : String} {k : Nat} {e : ReadError}
    (h : RejectsLine 1 (lines text.toList) k e) : load text = .error (.read k e) := by
  rw [load, readLines_eq, readFrom_of_rejectsLine h]
  rfl

theorem load_of_firstRepeat {text : String} {code : List Instruction} (h : HoldsCode text code)
    {name : String} (hr : FirstRepeat (Instruction.labels code) name) :
    load text = .error (.duplicateLabel name) := by
  rw [load_of_holdsCode h, firstRepeated_eq_some_iff.2 hr]

theorem load_of_nodup {text : String} {code : List Instruction} (h : HoldsCode text code)
    (hl : (Instruction.labels code).Nodup) : load text = .ok (link code) := by
  rw [load_of_holdsCode h, firstRepeated_eq_none_iff.2 hl]

end Rom

/-- A text has a line that does not read, or a label that is declared again, or neither. -/
theorem text_cases (text : String) :
    (∃ k e, RejectsLine 1 (lines text.toList) k e) ∨
      (∃ code name, HoldsCode text code ∧ FirstRepeat (labels code) name) ∨
      ∃ code, HoldsCode text code ∧ (labels code).Nodup := by
  rcases readsLines_or_rejectsLine 1 (lines text.toList) with ⟨code, h⟩ | h
  · cases hr : firstRepeated (labels code) with
    | some name => exact .inr (.inl ⟨code, name, h, firstRepeated_eq_some_iff.1 hr⟩)
    | none => exact .inr (.inr ⟨code, h, firstRepeated_eq_none_iff.1 hr⟩)
  · exact .inl h

namespace Rom

theorem load_eq_read_iff {text : String} {k : Nat} {e : ReadError} :
    load text = .error (.read k e) ↔ RejectsLine 1 (lines text.toList) k e := by
  refine ⟨fun h => ?_, load_of_rejectsLine⟩
  rcases text_cases text with ⟨k', e', hr⟩ | ⟨code, name, hc, hr⟩ | ⟨code, hc, hl⟩
  · rw [load_of_rejectsLine hr] at h
    cases h
    exact hr
  · rw [load_of_firstRepeat hc hr] at h
    cases h
  · rw [load_of_nodup hc hl] at h
    cases h

theorem load_eq_duplicateLabel_iff {text : String} {name : String} :
    load text = .error (.duplicateLabel name) ↔
      ∃ code, HoldsCode text code ∧ FirstRepeat (Instruction.labels code) name := by
  refine ⟨fun h => ?_, fun ⟨code, hc, hr⟩ => load_of_firstRepeat hc hr⟩
  rcases text_cases text with ⟨k, e, hr⟩ | ⟨code, name', hc, hr⟩ | ⟨code, hc, hl⟩
  · rw [load_of_rejectsLine hr] at h
    cases h
  · rw [load_of_firstRepeat hc hr] at h
    cases h
    exact ⟨code, hc, hr⟩
  · rw [load_of_nodup hc hl] at h
    cases h

theorem load_eq_ok_iff {text : String} {r : Rom} :
    load text = .ok r ↔
      ∃ code, HoldsCode text code ∧ (Instruction.labels code).Nodup ∧ link code = r := by
  refine ⟨fun h => ?_, fun ⟨code, hc, hl, hr⟩ => hr ▸ load_of_nodup hc hl⟩
  rcases text_cases text with ⟨k, e, hr⟩ | ⟨code, name, hc, hr⟩ | ⟨code, hc, hl⟩
  · rw [load_of_rejectsLine hr] at h
    cases h
  · rw [load_of_firstRepeat hc hr] at h
    cases h
  · rw [load_of_nodup hc hl] at h
    cases h
    exact ⟨code, hc, hl, rfl⟩

end Rom

/-- Loading reports the first line that does not read, with its number. If all lines read, it
reports the first label that is declared again. Otherwise it gives a program memory for the code,
as long as the addresses of words and variables are words. -/
theorem load_of_text {text : String}
    (hw : ∀ code, HoldsCode text code → words code ≤ maxWord)
    (hv : ∀ code, HoldsCode text code → (freeSymbols code).eraseDups.length < 65520) :
    (∀ k e, Rom.load text = .error (.read k e) ↔ RejectsLine 1 (lines text.toList) k e) ∧
      (∀ name, Rom.load text = .error (.duplicateLabel name) ↔
        ∃ code, HoldsCode text code ∧ FirstRepeat (labels code) name) ∧
      (∀ r, Rom.load text = .ok r →
        ∃ code, HoldsCode text code ∧ (labels code).Nodup ∧ r.Assembles code) ∧
      ∀ code, HoldsCode text code → (labels code).Nodup →
        ∃ r, Rom.load text = .ok r ∧ r.Assembles code := by
  have ha : ∀ code, HoldsCode text code → (labels code).Nodup → (Rom.link code).Assembles code :=
    fun code hc hl => Rom.assembles_link hc.wellFormed hl (hw code hc) (hv code hc)
  refine ⟨fun _ _ => Rom.load_eq_read_iff, fun _ => Rom.load_eq_duplicateLabel_iff,
    fun r h => ?_, fun code hc hl => ⟨_, Rom.load_of_nodup hc hl, ha code hc hl⟩⟩
  obtain ⟨code, hc, hl, rfl⟩ := Rom.load_eq_ok_iff.1 h
  exact ⟨code, hc, hl, ha code hc hl⟩

/-- A variable, a jump forward, and a blank line between them. -/
def jumpingText : String := "@x // first use\nM=0\n\n@END\n0;JMP\n(END)\n@R1\n"

def jumpingCode : List Instruction :=
  [load (.symbol "x"), assign .m .zero, load (.symbol "END"), branch .zero .always, label "END",
    load (.symbol "R1")]

theorem load_of_jumpingText :
    ∃ r code, Rom.load jumpingText = .ok r ∧ HoldsCode jumpingText code ∧ r.Assembles code ∧
      r.variableAddress? "x" = some 16 ∧ r.labelAddress? "END" = some 4 := by
  have hread : Rom.readFrom 1 (lines jumpingText.toList) = .ok jumpingCode := rfl
  have hcode : ∀ code, HoldsCode jumpingText code → code = jumpingCode := fun code hc =>
    Except.ok.inj ((Rom.readFrom_of_readsLines hc).symm.trans hread)
  have hload : Rom.load jumpingText = .ok (Rom.link jumpingCode) := rfl
  obtain ⟨-, -, hrom, -⟩ := @load_of_text jumpingText
    (fun code hc => by rw [hcode code hc]; decide)
    (fun code hc => by rw [hcode code hc]; decide)
  obtain ⟨code, hc, -, ha⟩ := hrom _ hload
  exact ⟨_, code, hload, hc, ha, rfl, rfl⟩

end HackVM
