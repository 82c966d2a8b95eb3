import HackVM.Command.Reader

/-!
# What the command reader accepts

For each reader the operands that it accepts and the command that it makes of them. Every
command that is read is in range: its index is one of its segment, its names are symbols, and
its counts fit into an address instruction.
-/

namespace HackVM

open Text

/-! ## Chains of checks -/

section

variable {ε α β : Type}

/-- A chain of checks succeeds if its first one does and the rest does on its value. -/
theorem bind_eq_ok_iff {x : Except ε α} {f : α → Except ε β} {b : β} :
    x >>= f = .ok b ↔ ∃ a, x = .ok a ∧ f a = .ok b := by
  cases x <;> simp [bind, Except.bind]

theorem map_eq_ok_iff {x : Except ε α} {f : α → β} {b : β} :
    x.map f = .ok b ↔ ∃ a, x = .ok a ∧ f a = b := by
  cases x <;> simp [Except.map]

theorem pure_eq_ok_iff {a b : α} : (pure a : Except ε α) = .ok b ↔ a = b := by
  simp [pure, Except.pure]

theorem throw_ne_ok {e : ε} {a : α} : (throw e : Except ε α) ≠ .ok a := by
  simp [throw, throwThe, MonadExceptOf.throw]

end

/-! ## Operands -/

theorem readCount_eq_ok_iff {role : OperandRole} {word : String} {n : Nat} :
    readCount role word = .ok n ↔ readNumber? word.toList = some n ∧ n ≤ maxAddress := by
  rw [readCount, bind_eq_ok_iff]
  constructor
  · rintro ⟨k, hk, h⟩
    rw [readNumber_eq_ok_iff] at hk
    by_cases hm : k ≤ maxAddress
    · rw [if_pos hm, pure_eq_ok_iff] at h
      exact h ▸ ⟨hk, hm⟩
    · rw [if_neg hm] at h
      exact absurd h throw_ne_ok
  · rintro ⟨hn, hm⟩
    exact ⟨n, readNumber_eq_ok_iff.2 hn, by rw [if_pos hm, pure_eq_ok_iff]⟩

namespace Command

theorem checkIndex_eq_ok_iff {s : Segment} {i : Nat} {u : Unit} :
    checkIndex s i = .ok u ↔ i ≤ s.maxIndex := by
  by_cases h : i ≤ s.maxIndex <;> simp [checkIndex, h]

theorem readPush_eq_ok_iff {segment index : String} {c : Command} :
    readPush segment index = .ok c ↔ ∃ s i, segment = s.keyword ∧
      readNumber? index.toList = some i ∧ i ≤ s.maxIndex ∧ c = .push s i := by
  simp only [readPush, bind_eq_ok_iff, Segment.read_eq_ok_iff, readNumber_eq_ok_iff,
    checkIndex_eq_ok_iff, pure_eq_ok_iff]
  constructor
  · rintro ⟨s, hs, i, hi, -, hm, rfl⟩
    exact ⟨s, i, hs, hi, hm, rfl⟩
  · rintro ⟨s, i, hs, hi, hm, rfl⟩
    exact ⟨s, hs, i, hi, (), hm, rfl⟩

theorem readPop_eq_ok_iff {segment index : String} {c : Command} :
    readPop segment index = .ok c ↔ ∃ s i, segment = s.keyword ∧
      readNumber? index.toList = some i ∧ s ≠ .constant ∧ i ≤ s.maxIndex ∧ c = .pop s i := by
  simp only [readPop, bind_eq_ok_iff, Segment.read_eq_ok_iff, readNumber_eq_ok_iff]
  constructor
  · rintro ⟨s, hs, i, hi, h⟩
    by_cases hp : s = .constant
    · rw [if_pos hp, bind_eq_ok_iff] at h
      obtain ⟨_, h, -⟩ := h
      exact absurd h throw_ne_ok
    · simp only [if_neg hp, bind_eq_ok_iff, checkIndex_eq_ok_iff, pure_eq_ok_iff] at h
      obtain ⟨-, hm, rfl⟩ := h
      exact ⟨s, i, hs, hi, hp, hm, rfl⟩
  · rintro ⟨s, i, hs, hi, hp, hm, rfl⟩
    refine ⟨s, hs, i, hi, ?_⟩
    simp only [if_neg hp, bind_eq_ok_iff, checkIndex_eq_ok_iff, pure_eq_ok_iff]
    exact ⟨(), hm, trivial⟩

/-- A name and a count, as `function` and `call` take them. -/
theorem readName_readCount_eq_ok_iff {f : String → Nat → Command} {role : OperandRole}
    {name count : String} {c : Command} :
    (do let a ← readName .functionName name; return f a (← readCount role count)) = .ok c ↔
      ∃ n, isSymbol name = true ∧ readNumber? count.toList = some n ∧ n ≤ maxAddress ∧
        c = f name n := by
  simp only [bind_eq_ok_iff, readName_eq_ok_iff, readCount_eq_ok_iff, pure_eq_ok_iff]
  constructor
  · rintro ⟨a, ⟨rfl, hs⟩, n, ⟨hr, hm⟩, rfl⟩
    exact ⟨n, hs, hr, hm, rfl⟩
  · rintro ⟨n, hs, hr, hm, rfl⟩
    exact ⟨name, ⟨rfl, hs⟩, n, ⟨hr, hm⟩, rfl⟩

theorem map_readName_eq_ok_iff {f : String → Command} {word : String} {c : Command} :
    f <$> readName .label word = .ok c ↔ isSymbol word = true ∧ c = f word := by
  by_cases h : isSymbol word = true
  · simp [readName, h, Functor.map, Except.map, eq_comm]
  · simp [readName, h, Functor.map, Except.map]

/-! ## Numbers of operands -/

theorem withNone_eq_ok_iff {keyword : String} {operands : List String} {c d : Command} :
    withNone keyword operands c = .ok d ↔ operands = [] ∧ d = c := by
  cases operands <;> simp [withNone, eq_comm]

theorem withOne_eq_ok_iff {keyword : String} {operands : List String}
    {reader : String → Except CommandError Command} {c : Command} :
    withOne keyword operands reader = .ok c ↔ ∃ a, operands = [a] ∧ reader a = .ok c := by
  rw [withOne.eq_def]
  split
  · simp
  · simp_all

theorem withTwo_eq_ok_iff {keyword : String} {operands : List String}
    {reader : String → String → Except CommandError Command} {c : Command} :
    withTwo keyword operands reader = .ok c ↔
      ∃ a b, operands = [a, b] ∧ reader a b = .ok c := by
  rw [withTwo.eq_def]
  split
  · rename_i a b
    simp only [List.cons.injEq, and_true]
    constructor
    · exact fun h => ⟨a, b, ⟨rfl, rfl⟩, h⟩
    · rintro ⟨_, _, ⟨rfl, rfl⟩, h⟩
      exact h
  · simp_all

/-! ## Commands in range -/

/-- What holds of every command that is read. -/
def InRange : Command → Prop
  | push s i => i ≤ s.maxIndex
  | pop s i => s ≠ .constant ∧ i ≤ s.maxIndex
  | arithmetic _ | ret => True
  | label name | goto name | ifGoto name => isSymbol name = true
  | function name n | call name n => isSymbol name = true ∧ n ≤ maxAddress

theorem inRange_of_ofKeyword {keyword : String} {operands : List String} {c : Command}
    (h : ofKeyword keyword operands = .ok c) : c.InRange := by
  rw [ofKeyword.eq_def] at h
  split at h
  · obtain ⟨_, _, -, h⟩ := withTwo_eq_ok_iff.1 h
    obtain ⟨s, i, -, -, hm, rfl⟩ := readPush_eq_ok_iff.1 h
    exact hm
  · obtain ⟨_, _, -, h⟩ := withTwo_eq_ok_iff.1 h
    obtain ⟨s, i, -, -, hp, hm, rfl⟩ := readPop_eq_ok_iff.1 h
    exact ⟨hp, hm⟩
  · obtain ⟨_, -, h⟩ := withOne_eq_ok_iff.1 h
    obtain ⟨hs, rfl⟩ := map_readName_eq_ok_iff.1 h
    exact hs
  · obtain ⟨_, -, h⟩ := withOne_eq_ok_iff.1 h
    obtain ⟨hs, rfl⟩ := map_readName_eq_ok_iff.1 h
    exact hs
  · obtain ⟨_, -, h⟩ := withOne_eq_ok_iff.1 h
    obtain ⟨hs, rfl⟩ := map_readName_eq_ok_iff.1 h
    exact hs
  · obtain ⟨_, _, -, h⟩ := withTwo_eq_ok_iff.1 h
    obtain ⟨n, hs, -, hm, rfl⟩ := readName_readCount_eq_ok_iff.1 h
    exact ⟨hs, hm⟩
  · obtain ⟨_, _, -, h⟩ := withTwo_eq_ok_iff.1 h
    obtain ⟨n, hs, -, hm, rfl⟩ := readName_readCount_eq_ok_iff.1 h
    exact ⟨hs, hm⟩
  · obtain ⟨-, rfl⟩ := withNone_eq_ok_iff.1 h
    trivial
  · cases h

theorem inRange_of_read {line : String} {c : Command} (h : read line = .ok c) : c.InRange := by
  rw [read] at h
  cases hw : (Text.words line.toList).map String.ofList with
  | nil =>
    rw [hw] at h
    cases h
  | cons keyword operands =>
    rw [hw, ofWords] at h
    cases ho : ArithmeticOp.ofKeyword? keyword with
    | some op =>
      simp only [ho] at h
      obtain ⟨-, rfl⟩ := withNone_eq_ok_iff.1 h
      trivial
    | none =>
      simp only [ho] at h
      exact inRange_of_ofKeyword h

end Command

end HackVM
