/-!
# Quoted text in JSON

Between the quotes of a JSON text a backslash begins an escape: one of eight letters and
marks, or `u` and the four hexadecimal digits of a UTF-16 code unit. Reading has two stages.
The first takes the escapes apart; the second puts the code units together and fails where a
surrogate has no partner. A text whose value does not matter passes the first stage only.

Writing escapes the quote, the backslash and the control characters, and nothing else.
-/

namespace HackVM.Json

/-- A character as it stands or from a short escape, or a code unit from a long one. -/
inductive Piece
  | char (c : Char)
  | unit (n : Nat)
deriving DecidableEq, Repr

/-! ## Reading -/

def hexDigit? (c : Char) : Option Nat :=
  let n := c.toNat
  if 0x30 ≤ n ∧ n ≤ 0x39 then some (n - 0x30)
  else if 0x61 ≤ n ∧ n ≤ 0x66 then some (n - 0x61 + 10)
  else if 0x41 ≤ n ∧ n ≤ 0x46 then some (n - 0x41 + 10)
  else none

def codeUnit? (a b c d : Char) : Option Nat := do
  return ((← hexDigit? a) * 16 + (← hexDigit? b)) * 256 + ((← hexDigit? c) * 16 + (← hexDigit? d))

/-- The characters that a backslash and one character stand for. -/
def shortEscapes : List (Char × Char) :=
  [('"', '"'), ('\\', '\\'), ('/', '/'), ('b', '\x08'), ('f', '\x0c'), ('n', '\n'), ('r', '\r'),
    ('t', '\t')]

/-- Take the escapes apart. -/
def pieces? : List Char → Option (List Piece)
  | [] => some []
  | '\\' :: 'u' :: a :: b :: c :: d :: s => do return .unit (← codeUnit? a b c d) :: (← pieces? s)
  | '\\' :: e :: s => do return .char (← shortEscapes.lookup e) :: (← pieces? s)
  | c :: s => if c == '\\' then none else (.char c :: ·) <$> pieces? s

def isHighSurrogate (n : Nat) : Bool := 0xD800 ≤ n && n < 0xDC00

def isLowSurrogate (n : Nat) : Bool := 0xDC00 ≤ n && n < 0xE000

/-- Put the code units together. -/
def characters? : List Piece → Option (List Char)
  | [] => some []
  | .char c :: s => (c :: ·) <$> characters? s
  | .unit h :: .unit l :: s =>
    if isHighSurrogate h && isLowSurrogate l then
      (Char.ofNat (0x10000 + (h - 0xD800) * 0x400 + (l - 0xDC00)) :: ·) <$> characters? s
    else if isHighSurrogate h || isLowSurrogate h then none
    else (Char.ofNat h :: ·) <$> characters? (.unit l :: s)
  | .unit n :: s =>
    if isHighSurrogate n || isLowSurrogate n then none else (Char.ofNat n :: ·) <$> characters? s

theorem pieces?_of_ne {c : Char} (h : c ≠ '\\') (s : List Char) :
    pieces? (c :: s) = (.char c :: ·) <$> pieces? s := by
  rw [pieces?.eq_4]
  · simp [h]
  · rintro _ _ _ _ _ rfl
    exact absurd rfl h
  · rintro _ _ rfl
    exact absurd rfl h

theorem pieces?_short {e : Char} (hu : e ≠ 'u') (s : List Char) :
    pieces? ('\\' :: e :: s) = do return .char (← shortEscapes.lookup e) :: (← pieces? s) := by
  rw [pieces?.eq_3]
  rintro _ _ _ _ _ rfl
  exact absurd rfl hu

/-- A code unit below the surrogates stands for itself, whatever comes behind it. -/
theorem characters?_unit {n : Nat} (h : n < 0xD800) (ps : List Piece) :
    characters? (.unit n :: ps) = (Char.ofNat n :: ·) <$> characters? ps := by
  have hhigh : isHighSurrogate n = false := by
    simp only [isHighSurrogate, Bool.and_eq_false_iff, decide_eq_false_iff_not]
    omega
  have hlow : isLowSurrogate n = false := by
    simp only [isLowSurrogate, Bool.and_eq_false_iff, decide_eq_false_iff_not]
    omega
  cases ps with
  | nil => simp [characters?, hhigh, hlow]
  | cons p ps => cases p <;> simp [characters?, hhigh, hlow]

/-! ## Writing -/

def hexChar (n : Nat) : Char := Char.ofNat (if n < 10 then '0'.toNat + n else 'a'.toNat + n - 10)

def escape (c : Char) : List Char :=
  match c with
  | '"' => ['\\', '"']
  | '\\' => ['\\', '\\']
  | '\x08' => ['\\', 'b']
  | '\x0c' => ['\\', 'f']
  | '\n' => ['\\', 'n']
  | '\r' => ['\\', 'r']
  | '\t' => ['\\', 't']
  | _ =>
    if c.toNat < 0x20 then ['\\', 'u', '0', '0', hexChar (c.toNat / 16), hexChar (c.toNat % 16)]
    else [c]

def quote (s : String) : String := String.ofList ('"' :: s.toList.flatMap escape ++ ['"'])

/-- The ways to write a character: behind a backslash, as a code unit, or as it stands. -/
theorem escape_cases (c : Char) :
    (∃ e, e ≠ 'u' ∧ shortEscapes.lookup e = some c ∧ escape c = ['\\', e]) ∨
      (c.toNat < 0x20 ∧
        escape c = ['\\', 'u', '0', '0', hexChar (c.toNat / 16), hexChar (c.toNat % 16)]) ∨
      (c ≠ '"' ∧ c ≠ '\\' ∧ 0x20 ≤ c.toNat ∧ escape c = [c]) := by
  rw [escape.eq_def]
  split
  · exact .inl ⟨'"', by decide, by decide, rfl⟩
  · exact .inl ⟨'\\', by decide, by decide, rfl⟩
  · exact .inl ⟨'b', by decide, by decide, rfl⟩
  · exact .inl ⟨'f', by decide, by decide, rfl⟩
  · exact .inl ⟨'n', by decide, by decide, rfl⟩
  · exact .inl ⟨'r', by decide, by decide, rfl⟩
  · exact .inl ⟨'t', by decide, by decide, rfl⟩
  · rename_i hquote hslash _ _ _ _ _
    by_cases hc : c.toNat < 0x20
    · rw [if_pos hc]
      exact .inr (.inl ⟨hc, rfl⟩)
    · rw [if_neg hc]
      exact .inr (.inr ⟨hquote, hslash, Nat.le_of_not_lt hc, rfl⟩)

theorem hexDigit?_hexChar {n : Nat} (h : n < 16) : hexDigit? (hexChar n) = some n := by
  have key : ∀ n : Fin 16, hexDigit? (hexChar n) = some n.val := by decide
  exact key ⟨n, h⟩

theorem codeUnit?_hexChar {n : Nat} (h : n < 0x20) :
    codeUnit? '0' '0' (hexChar (n / 16)) (hexChar (n % 16)) = some n := by
  have hzero : hexDigit? '0' = some 0 := by decide
  rw [codeUnit?, hzero, hexDigit?_hexChar (by omega), hexDigit?_hexChar (by omega)]
  simp only [Option.pure_def, Option.bind_eq_bind, Option.bind_some, Option.some.injEq]
  omega

/-- What stands between the quotes of a written text is read back as this text. -/
theorem characters?_escape (s : List Char) :
    (pieces? (s.flatMap escape)).bind characters? = some s := by
  induction s with
  | nil => rfl
  | cons c s ih =>
    obtain ⟨ps, hp, hc⟩ := Option.bind_eq_some_iff.1 ih
    rw [List.flatMap_cons]
    obtain ⟨e, hu, he, hw⟩ | ⟨hcontrol, hw⟩ | ⟨-, hslash, -, hw⟩ := escape_cases c
    · rw [hw, List.cons_append, List.cons_append, List.nil_append, pieces?_short hu, he, hp]
      show (c :: ·) <$> characters? ps = _
      rw [hc]
      rfl
    · rw [hw]
      simp only [List.cons_append, List.nil_append, pieces?, codeUnit?_hexChar hcontrol, hp]
      show characters? (.unit c.toNat :: ps) = _
      rw [characters?_unit (by omega), hc, Char.ofNat_toNat]
      rfl
    · rw [hw, List.cons_append, List.nil_append, pieces?_of_ne hslash, hp]
      show (c :: ·) <$> characters? ps = _
      rw [hc]
      rfl

example : (pieces? "a\\\"\\u001f\\n".toList).bind characters? = some "a\"\x1f\n".toList := by
  decide

end HackVM.Json
