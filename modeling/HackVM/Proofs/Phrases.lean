import HackVM.Proofs.Written

/-!
# The grammar of commands

Which words spell a command, and how a line is rejected whose words spell none. A rejected line
names an element that no segment has, or asks for a pop to `constant`, if it is a `push` or a
`pop` with two operands and nothing else is wrong with it; all other lines that are rejected are
malformed. The text of a command in range is one way to spell it, and no other command is read
back from its text.
-/

namespace HackVM

open Text

/-! ## Words that spell a command -/

/-- The segment has an element with this index. -/
inductive Segment.HasElement : Segment → Nat → Prop
  | temp {i : Nat} : i ≤ 7 → HasElement .temp i
  | pointer {i : Nat} : i ≤ 1 → HasElement .pointer i
  | other {s : Segment} {i : Nat} : s ≠ .temp → s ≠ .pointer → i ≤ 32767 → HasElement s i

theorem Segment.hasElement_iff {s : Segment} {i : Nat} : s.HasElement i ↔ i ≤ s.maxIndex := by
  constructor
  · intro h
    cases h with
    | temp hi => exact hi
    | pointer hi => exact hi
    | other ht hp hi => cases s <;> first | exact hi | contradiction
  · intro h
    cases s with
    | temp => exact .temp h
    | pointer => exact .pointer h
    | _ => exact .other (by decide) (by decide) h

namespace Command

/-- The words of a line. -/
def wordsOf (line : String) : List String := (Text.words line.toList).map String.ofList

theorem wordsOf_eq_iff {line : String} {ws : List String} :
    wordsOf line = ws ↔ HasWords line.toList (ws.map String.toList) := by
  rw [← words_eq_iff, wordsOf]
  constructor
  · rintro rfl
    simp [Function.comp_def]
  · intro h
    simp [h, Function.comp_def]

/-- What the words of a line say, each command with its operands. -/
inductive Spells : List String → Command → Prop
  | push {s : Segment} {i : Nat} {index : String} :
    Numeral index.toList i → s.HasElement i → Spells ["push", s.keyword, index] (.push s i)
  | pop {s : Segment} {i : Nat} {index : String} :
    s ≠ .constant → Numeral index.toList i → s.HasElement i →
    Spells ["pop", s.keyword, index] (.pop s i)
  | arithmetic (op : ArithmeticOp) : Spells [op.keyword] (.arithmetic op)
  | label {name : String} : isSymbol name = true → Spells ["label", name] (.label name)
  | goto {name : String} : isSymbol name = true → Spells ["goto", name] (.goto name)
  | ifGoto {name : String} : isSymbol name = true → Spells ["if-goto", name] (.ifGoto name)
  | function {name count : String} {n : Nat} :
    isSymbol name = true → Numeral count.toList n → n ≤ 32767 →
    Spells ["function", name, count] (.function name n)
  | call {name count : String} {n : Nat} :
    isSymbol name = true → Numeral count.toList n → n ≤ 32767 →
    Spells ["call", name, count] (.call name n)
  | ret : Spells ["return"] .ret

theorem spells_of_ofKeyword {keyword : String} {operands : List String} {c : Command}
    (h : ofKeyword keyword operands = .ok c) : Spells (keyword :: operands) c := by
  rw [ofKeyword.eq_def] at h
  split at h
  · obtain ⟨_, _, rfl, h⟩ := withTwo_eq_ok_iff.1 h
    obtain ⟨s, i, rfl, hi, hm, rfl⟩ := readPush_eq_ok_iff.1 h
    exact .push (readNumber?_eq_some_iff.1 hi) (Segment.hasElement_iff.2 hm)
  · obtain ⟨_, _, rfl, h⟩ := withTwo_eq_ok_iff.1 h
    obtain ⟨s, i, rfl, hi, hp, hm, rfl⟩ := readPop_eq_ok_iff.1 h
    exact .pop hp (readNumber?_eq_some_iff.1 hi) (Segment.hasElement_iff.2 hm)
  · obtain ⟨_, rfl, h⟩ := withOne_eq_ok_iff.1 h
    obtain ⟨hs, rfl⟩ := map_readName_eq_ok_iff.1 h
    exact .label hs
  · obtain ⟨_, rfl, h⟩ := withOne_eq_ok_iff.1 h
    obtain ⟨hs, rfl⟩ := map_readName_eq_ok_iff.1 h
    exact .goto hs
  · obtain ⟨_, rfl, h⟩ := withOne_eq_ok_iff.1 h
    obtain ⟨hs, rfl⟩ := map_readName_eq_ok_iff.1 h
    exact .ifGoto hs
  · obtain ⟨_, _, rfl, h⟩ := withTwo_eq_ok_iff.1 h
    obtain ⟨n, hs, hn, hm, rfl⟩ := readName_readCount_eq_ok_iff.1 h
    exact .function hs (readNumber?_eq_some_iff.1 hn) hm
  · obtain ⟨_, _, rfl, h⟩ := withTwo_eq_ok_iff.1 h
    obtain ⟨n, hs, hn, hm, rfl⟩ := readName_readCount_eq_ok_iff.1 h
    exact .call hs (readNumber?_eq_some_iff.1 hn) hm
  · obtain ⟨rfl, rfl⟩ := withNone_eq_ok_iff.1 h
    exact .ret
  · cases h

/-- The words of a line are read as the command that they spell. -/
theorem ofWords_eq_ok_iff {ws : List String} {c : Command} : ofWords ws = .ok c ↔ Spells ws c := by
  constructor
  · intro h
    cases ws with
    | nil => cases h
    | cons keyword operands =>
      rw [ofWords] at h
      cases ho : ArithmeticOp.ofKeyword? keyword with
      | some op =>
        simp only [ho] at h
        obtain ⟨rfl, rfl⟩ := withNone_eq_ok_iff.1 h
        rw [ArithmeticOp.ofKeyword?_eq_some_iff.1 ho]
        exact .arithmetic op
      | none =>
        simp only [ho] at h
        exact spells_of_ofKeyword h
  · intro h
    cases h with
    | @push s i _ hn hi =>
      exact readPush_eq_ok_iff.2
        ⟨s, i, rfl, readNumber?_eq_some_iff.2 hn, Segment.hasElement_iff.1 hi, rfl⟩
    | @pop s i _ hp hn hi =>
      exact readPop_eq_ok_iff.2
        ⟨s, i, rfl, readNumber?_eq_some_iff.2 hn, hp, Segment.hasElement_iff.1 hi, rfl⟩
    | arithmetic op =>
      rw [ofWords, ArithmeticOp.ofKeyword?_keyword]
      rfl
    | label hs => exact map_readName_eq_ok_iff.2 ⟨hs, rfl⟩
    | goto hs => exact map_readName_eq_ok_iff.2 ⟨hs, rfl⟩
    | ifGoto hs => exact map_readName_eq_ok_iff.2 ⟨hs, rfl⟩
    | @function _ _ n hs hn hm =>
      exact readName_readCount_eq_ok_iff.2 ⟨n, hs, readNumber?_eq_some_iff.2 hn, hm, rfl⟩
    | @call _ _ n hs hn hm =>
      exact readName_readCount_eq_ok_iff.2 ⟨n, hs, readNumber?_eq_some_iff.2 hn, hm, rfl⟩
    | ret => rfl

/-! ## How a line is rejected -/

/-- A `push` or `pop` with two operands that name no element to move: there is no such segment,
or its index is a number and it has no element with that index, or a pop is to a constant. -/
inductive NamesNoElement : List String → Prop
  | segment {keyword segment index : String} :
    keyword = "push" ∨ keyword = "pop" → (∀ s : Segment, segment ≠ s.keyword) →
    NamesNoElement [keyword, segment, index]
  | constant {keyword index : String} {i : Nat} :
    keyword = "pop" → Numeral index.toList i →
    NamesNoElement [keyword, Segment.constant.keyword, index]
  | index {keyword index : String} {s : Segment} {i : Nat} :
    keyword = "push" ∨ keyword = "pop" → Numeral index.toList i → ¬ s.HasElement i →
    NamesNoElement [keyword, s.keyword, index]

end Command

section

variable {α β : Type}

/-- The reader answers with an error of this class: of a segment or not. -/
def RejectsAs (segment : Bool) (x : Except CommandError α) : Prop :=
  ∃ e, x = .error e ∧ e.isSegmentFault = segment

variable {segment : Bool}

theorem not_rejectsAs_ok {a : α} : ¬ RejectsAs segment (.ok a : Except CommandError α) := by
  intro h
  obtain ⟨e, he, -⟩ := h
  cases he

theorem rejectsAs_error_iff {e : CommandError} :
    RejectsAs segment (.error e : Except CommandError α) ↔ e.isSegmentFault = segment := by
  constructor
  · intro h
    obtain ⟨e', he, hs⟩ := h
    cases he
    exact hs
  · intro h
    exact ⟨e, rfl, h⟩

/-- Most errors are not about a segment. -/
theorem not_rejectsAs_error {e : CommandError} (h : e.isSegmentFault = false) :
    ¬ RejectsAs true (.error e : Except CommandError α) := by
  rw [rejectsAs_error_iff, h]
  exact Bool.false_ne_true

/-- A chain of checks is rejected by its first one, or by the rest on the value of the first. -/
theorem rejectsAs_bind_iff {x : Except CommandError α} {f : α → Except CommandError β} :
    RejectsAs segment (x >>= f) ↔
      RejectsAs segment x ∨ ∃ a, x = .ok a ∧ RejectsAs segment (f a) := by
  cases x with
  | error e =>
    show RejectsAs segment (.error e) ↔ _
    rw [rejectsAs_error_iff, rejectsAs_error_iff]
    simp
  | ok a =>
    show RejectsAs segment (f a) ↔ _
    simp [not_rejectsAs_ok]

/-- Every answer is a value, or an error of one of the two classes. -/
theorem exists_ok_or_rejectsAs (x : Except CommandError α) :
    (∃ a, x = .ok a) ∨ RejectsAs true x ∨ RejectsAs false x := by
  cases x with
  | ok a => exact .inl ⟨a, rfl⟩
  | error e =>
    cases he : e.isSegmentFault with
    | true => exact .inr (.inl ⟨e, rfl, he⟩)
    | false => exact .inr (.inr ⟨e, rfl, he⟩)

theorem rejectsAs_false_iff {x : Except CommandError α} :
    RejectsAs false x ↔ (∀ a, x ≠ .ok a) ∧ ¬ RejectsAs true x := by
  constructor
  · intro h
    obtain ⟨e, rfl, he⟩ := h
    constructor
    · intro a ha
      cases ha
    · exact not_rejectsAs_error he
  · intro h
    obtain ⟨a, ha⟩ | hr | hr := exists_ok_or_rejectsAs x
    · exact absurd ha (h.1 a)
    · exact absurd hr h.2
    · exact hr

/-! ## Faults of segments -/

theorem rejectsAs_readSegment_iff {word : String} :
    RejectsAs true (Segment.read word) ↔ ∀ s : Segment, word ≠ s.keyword := by
  rw [Segment.read]
  cases hs : Segment.ofKeyword? word with
  | some s =>
    constructor
    · intro h
      exact absurd h not_rejectsAs_ok
    · intro h
      exact absurd (Segment.ofKeyword?_eq_some_iff.1 hs) (h s)
  | none =>
    constructor
    · intro _ s hw
      rw [Segment.ofKeyword?_eq_some_iff.2 hw] at hs
      cases hs
    · intro _
      exact rejectsAs_error_iff.2 rfl

theorem not_rejectsAs_readNumber {role : OperandRole} {word : String} :
    ¬ RejectsAs true (readNumber role word) := by
  rw [readNumber]
  cases readNumber? word.toList with
  | some n => exact not_rejectsAs_ok
  | none => exact not_rejectsAs_error rfl

theorem not_rejectsAs_readName {role : OperandRole} {word : String} :
    ¬ RejectsAs true (readName role word) := by
  rw [readName]
  by_cases h : isSymbol word = true
  · rw [if_pos h]
    exact not_rejectsAs_ok
  · rw [if_neg h]
    exact not_rejectsAs_error rfl

theorem not_rejectsAs_readCount {role : OperandRole} {word : String} :
    ¬ RejectsAs true (readCount role word) := by
  rw [readCount, rejectsAs_bind_iff]
  intro h
  rcases h with h | ⟨n, -, h⟩
  · exact not_rejectsAs_readNumber h
  · by_cases hm : n ≤ maxAddress
    · rw [if_pos hm] at h
      exact not_rejectsAs_ok h
    · rw [if_neg hm] at h
      exact not_rejectsAs_error rfl h

end

namespace Command

theorem rejectsAs_checkIndex_iff {s : Segment} {i : Nat} :
    RejectsAs true (checkIndex s i) ↔ ¬ s.HasElement i := by
  rw [Segment.hasElement_iff, checkIndex]
  by_cases h : i ≤ s.maxIndex
  · rw [if_pos h]
    exact ⟨fun hr => absurd hr not_rejectsAs_ok, fun hn => absurd h hn⟩
  · rw [if_neg h, rejectsAs_error_iff]
    exact ⟨fun _ => h, fun _ => rfl⟩

theorem rejectsAs_readPush_iff {segment index : String} :
    RejectsAs true (readPush segment index) ↔ NamesNoElement ["push", segment, index] := by
  simp only [readPush, rejectsAs_bind_iff, rejectsAs_readSegment_iff, not_rejectsAs_readNumber,
    Segment.read_eq_ok_iff, readNumber_eq_ok_iff, readNumber?_eq_some_iff,
    rejectsAs_checkIndex_iff]
  constructor
  · intro h
    rcases h with h | ⟨s, rfl, h | ⟨i, hi, h | ⟨_, -, h⟩⟩⟩
    · exact .segment (.inl rfl) h
    · exact h.elim
    · exact .index (.inl rfl) hi h
    · exact absurd h not_rejectsAs_ok
  · intro h
    cases h with
    | segment _ hs => exact .inl hs
    | constant hk => exact absurd hk (by decide)
    | index _ hi he => exact .inr ⟨_, rfl, .inr ⟨_, hi, .inl he⟩⟩

/-- The checks of a pop behind those of its operands. -/
theorem rejectsAs_popElement_iff {s : Segment} {i : Nat} :
    RejectsAs true (do
      if s = .constant then throw CommandError.popConstant
      checkIndex s i
      return Command.pop s i) ↔ s = .constant ∨ ¬ s.HasElement i := by
  by_cases hp : s = .constant
  · rw [if_pos hp]
    exact ⟨fun _ => .inl hp, fun _ => ⟨_, rfl, rfl⟩⟩
  · rw [if_neg hp]
    show RejectsAs true (checkIndex s i >>= fun _ => pure (Command.pop s i)) ↔ _
    rw [rejectsAs_bind_iff, rejectsAs_checkIndex_iff, or_iff_right hp, or_iff_left]
    intro h
    obtain ⟨_, -, h⟩ := h
    exact not_rejectsAs_ok h

theorem rejectsAs_readPop_iff {segment index : String} :
    RejectsAs true (readPop segment index) ↔ NamesNoElement ["pop", segment, index] := by
  simp only [readPop, rejectsAs_bind_iff, rejectsAs_readSegment_iff, not_rejectsAs_readNumber,
    Segment.read_eq_ok_iff, readNumber_eq_ok_iff, readNumber?_eq_some_iff]
  constructor
  · intro h
    rcases h with h | ⟨s, rfl, h | ⟨i, hi, h⟩⟩
    · exact .segment (.inr rfl) h
    · exact h.elim
    · rcases rejectsAs_popElement_iff.1 h with rfl | he
      · exact .constant rfl hi
      · exact .index (.inr rfl) hi he
  · intro h
    cases h with
    | segment _ hs => exact .inl hs
    | constant _ hi =>
      exact .inr ⟨_, rfl, .inr ⟨_, hi, rejectsAs_popElement_iff.2 (.inl rfl)⟩⟩
    | index _ hi he =>
      exact .inr ⟨_, rfl, .inr ⟨_, hi, rejectsAs_popElement_iff.2 (.inr he)⟩⟩

/-! ## Whole lines -/

variable {keyword : String} {operands : List String}

theorem not_rejectsAs_withNone {c : Command} : ¬ RejectsAs true (withNone keyword operands c) := by
  cases operands with
  | nil => exact not_rejectsAs_ok
  | cons a operands => exact not_rejectsAs_error rfl

theorem not_rejectsAs_withOne {f : String → Command} :
    ¬ RejectsAs true (withOne keyword operands fun a => f <$> readName .label a) := by
  rw [withOne.eq_def]
  split
  · rw [map_eq_pure_bind, rejectsAs_bind_iff]
    intro h
    rcases h with h | ⟨_, -, h⟩
    · exact not_rejectsAs_readName h
    · exact not_rejectsAs_ok h
  · exact not_rejectsAs_error rfl

theorem rejectsAs_withTwo_iff {reader : String → String → Except CommandError Command} :
    RejectsAs true (withTwo keyword operands reader) ↔
      ∃ a b, operands = [a, b] ∧ RejectsAs true (reader a b) := by
  rw [withTwo.eq_def]
  split
  · rename_i a b
    constructor
    · intro h
      exact ⟨a, b, rfl, h⟩
    · intro h
      obtain ⟨_, _, ho, h⟩ := h
      cases ho
      exact h
  · rename_i hne
    constructor
    · intro h
      exact absurd h (not_rejectsAs_error rfl)
    · intro h
      obtain ⟨a, b, ho, -⟩ := h
      exact absurd ho (hne a b)

theorem not_rejectsAs_readName_readCount {f : String → Nat → Command} {role : OperandRole}
    {name count : String} :
    ¬ RejectsAs true (do
      let a ← readName .functionName name
      return f a (← readCount role count)) := by
  simp only [rejectsAs_bind_iff, not_rejectsAs_readName, not_rejectsAs_readCount, false_or]
  intro h
  obtain ⟨_, -, _, -, h⟩ := h
  exact not_rejectsAs_ok h

theorem NamesNoElement.keyword_eq (h : NamesNoElement (keyword :: operands)) :
    keyword = "push" ∨ keyword = "pop" := by
  cases h with
  | segment hk _ => exact hk
  | constant hk _ => exact .inr hk
  | index hk _ _ => exact hk

theorem NamesNoElement.exists_operands (h : NamesNoElement (keyword :: operands)) :
    ∃ a b, operands = [a, b] := by
  cases h with
  | segment => exact ⟨_, _, rfl⟩
  | constant => exact ⟨_, _, rfl⟩
  | index => exact ⟨_, _, rfl⟩

/-- Only a `push` and a `pop` can fail at their segment. -/
theorem rejectsAs_ofKeyword_iff :
    RejectsAs true (ofKeyword keyword operands) ↔ NamesNoElement (keyword :: operands) := by
  constructor
  · intro h
    rw [ofKeyword.eq_def] at h
    split at h
    · obtain ⟨a, b, rfl, h⟩ := rejectsAs_withTwo_iff.1 h
      exact rejectsAs_readPush_iff.1 h
    · obtain ⟨a, b, rfl, h⟩ := rejectsAs_withTwo_iff.1 h
      exact rejectsAs_readPop_iff.1 h
    · exact absurd h not_rejectsAs_withOne
    · exact absurd h not_rejectsAs_withOne
    · exact absurd h not_rejectsAs_withOne
    · obtain ⟨a, b, -, h⟩ := rejectsAs_withTwo_iff.1 h
      exact absurd h not_rejectsAs_readName_readCount
    · obtain ⟨a, b, -, h⟩ := rejectsAs_withTwo_iff.1 h
      exact absurd h not_rejectsAs_readName_readCount
    · exact absurd h not_rejectsAs_withNone
    · exact absurd h (not_rejectsAs_error rfl)
  · intro h
    obtain ⟨a, b, rfl⟩ := h.exists_operands
    rcases h.keyword_eq with rfl | rfl
    · exact rejectsAs_readPush_iff.2 h
    · exact rejectsAs_readPop_iff.2 h

theorem rejectsAs_ofWords_iff {ws : List String} :
    RejectsAs true (ofWords ws) ↔ NamesNoElement ws := by
  cases ws with
  | nil =>
    constructor
    · intro h
      exact absurd h (not_rejectsAs_error rfl)
    · intro h
      cases h
  | cons keyword operands =>
    rw [ofWords]
    cases ho : ArithmeticOp.ofKeyword? keyword with
    | some op =>
      constructor
      · intro h
        exact absurd h not_rejectsAs_withNone
      · intro h
        rcases h.keyword_eq with rfl | rfl
        · cases ho
        · cases ho
    | none => exact rejectsAs_ofKeyword_iff

/-- A line is read just if its words spell a command, and then as that command. It is rejected for
its segment just if it is a `push` or a `pop` that names no element, and as malformed if its words
neither spell a command nor name no element. -/
theorem read_of_words (line : String) :
    (∀ c, read line = .ok c ↔ Spells (wordsOf line) c) ∧
      (RejectsAs true (read line) ↔ NamesNoElement (wordsOf line)) ∧
      (RejectsAs false (read line) ↔
        (∀ c, ¬ Spells (wordsOf line) c) ∧ ¬ NamesNoElement (wordsOf line)) := by
  have hok : ∀ c, read line = .ok c ↔ Spells (wordsOf line) c := fun c => ofWords_eq_ok_iff
  have hsegment : RejectsAs true (read line) ↔ NamesNoElement (wordsOf line) :=
    rejectsAs_ofWords_iff
  refine ⟨hok, hsegment, ?_⟩
  rw [rejectsAs_false_iff, hsegment]
  simp only [ne_eq, hok]

/-- Lines with two faults each. An unknown segment goes before an index that is no number, such an
index before a pop to `constant`, and an operand too many before a wrong index. -/
theorem read_of_faultyLines :
    RejectsAs true (read "pop nowhere x") ∧
      RejectsAs true (read " pop constant +40000") ∧
      (RejectsAs false (read "pop\tconstant x") ∧ ¬ NamesNoElement (wordsOf "pop\tconstant x")) ∧
      RejectsAs false (read "push temp 8 9") ∧ ¬ NamesNoElement (wordsOf "push temp 8 9") := by
  have hnumber : Numeral "+40000".toList 40000 := readNumber?_eq_some_iff.1 rfl
  have hindex : RejectsAs false (read "pop\tconstant x") := ⟨_, rfl, rfl⟩
  have hthree : RejectsAs false (read "push temp 8 9") := ⟨_, rfl, rfl⟩
  refine ⟨?_, ?_, ⟨hindex, ?_⟩, hthree, ?_⟩
  · refine (read_of_words "pop nowhere x").2.1.2 (.segment (.inr rfl) ?_)
    intro s
    cases s <;> decide
  · exact (read_of_words " pop constant +40000").2.1.2 (.constant rfl hnumber)
  · exact ((read_of_words "pop\tconstant x").2.2.1 hindex).2
  · exact ((read_of_words "push temp 8 9").2.2.1 hthree).2

/-! ## Commands and their text -/

/-- A command is read back from its text just if it is in range. What is read is in range, so the
text of a command that a line holds says the same as the line. -/
theorem roundTrip_iff_inRange :
    (∀ c : Command, read c.text = .ok c ↔ c.InRange) ∧
      ∀ line c, read line = .ok c → c.InRange ∧ read c.text = .ok c := by
  refine ⟨fun c => ⟨inRange_of_read, read_text⟩, ?_⟩
  intro line c h
  have hc := inRange_of_read h
  exact ⟨hc, read_text hc⟩

/-- Blanks and the spelling of the number are not kept. -/
theorem roundTrip_of_spacedCall :
    read "call  Main.f\t+02 " = .ok (.call "Main.f" 2) ∧ (call "Main.f" 2).InRange ∧
      read "call Main.f 2" = .ok (.call "Main.f" 2) := by
  have hr : read "call  Main.f\t+02 " = .ok (.call "Main.f" 2) := rfl
  obtain ⟨hc, ht⟩ := roundTrip_iff_inRange.2 _ _ hr
  exact ⟨hr, hc, ht⟩

end Command

end HackVM
