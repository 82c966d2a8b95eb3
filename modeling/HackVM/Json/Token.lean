import HackVM.Json.Quoted
import HackVM.Text.Decimal

/-!
# JSON tokens

A JSON text is a sequence of marks, quoted texts, numbers and the three words `true`, `false`
and `null`, with blanks between them. The blanks of JSON are the space, the tab, the line feed
and the carriage return.
-/

namespace HackVM.Json

inductive Token
  | openBrace | closeBrace | openBracket | closeBracket | colon | comma
  | null
  | bool (b : Bool)
  | number (text : List Char)
  | text (pieces : List Piece)
deriving DecidableEq, Repr

def isSpace (c : Char) : Bool := c == ' ' || c == '\t' || c == '\n' || c == '\r'

def mark? : Char → Option Token
  | '\x7b' => some .openBrace
  | '\x7d' => some .closeBrace
  | '[' => some .openBracket
  | ']' => some .closeBracket
  | ':' => some .colon
  | ',' => some .comma
  | _ => none

/-! ## Numbers

An optional minus sign, an integer without leading zeros, an optional fraction and an optional
exponent. Each function gives what follows its part. -/

def afterDigits? (s : List Char) : Option (List Char) :=
  if s.head?.any Char.isDigit then some (s.dropWhile Char.isDigit) else none

def afterInteger? : List Char → Option (List Char)
  | '0' :: s => some s
  | s => afterDigits? s

def afterFraction? : List Char → Option (List Char)
  | '.' :: s => afterDigits? s
  | s => some s

def afterSign : List Char → List Char
  | '+' :: s | '-' :: s => s
  | s => s

def afterExponent? : List Char → Option (List Char)
  | 'e' :: s | 'E' :: s => afterDigits? (afterSign s)
  | s => some s

def isNumber (s : List Char) : Bool :=
  let s := if s.head? = some '-' then s.tail else s
  (do afterExponent? (← afterFraction? (← afterInteger? s))) == some []

theorem head?_decimal_ne_zero {n : Nat} (h : n ≠ 0) :
    (Text.decimal n).toList.head? ≠ some '0' := by
  induction n using Nat.strongRecOn with
  | _ n ih =>
    rw [Text.decimal_toList]
    by_cases hn : n < 10
    · rw [Nat.toDigits_of_lt_base hn]
      have key : ∀ n < 10, n ≠ 0 → [Nat.digitChar n].head? ≠ some '0' := by decide
      exact key n hn h
    · have hfirst := ih (n / 10) (by omega) (by omega)
      obtain ⟨c, t, hd⟩ := List.exists_cons_of_ne_nil (Nat.toDigits_ne_nil (b := 10) (n := n / 10))
      rw [Text.decimal_toList, hd] at hfirst
      rw [Nat.toDigits_of_base_le (by decide) (Nat.le_of_not_lt hn), hd]
      exact hfirst

/-- A number in decimal digits is a number of JSON. -/
theorem isNumber_decimal (n : Nat) : isNumber (Text.decimal n).toList = true := by
  by_cases h : n = 0
  · rw [h]
    decide
  · have hdigit : ∀ c ∈ (Text.decimal n).toList, c.isDigit = true :=
      fun c => Text.isDigit_of_mem_decimal
    have hzero := head?_decimal_ne_zero h
    have hne := Text.decimal_ne_nil n
    generalize (Text.decimal n).toList = s at hdigit hzero hne
    cases s with
    | nil => exact absurd rfl hne
    | cons c s =>
      have hc : c.isDigit = true := hdigit c (by simp)
      have hsign : c ≠ '-' := by
        rintro rfl
        exact absurd hc (by decide)
      have hall : (s ++ []).dropWhile Char.isDigit = [] :=
        List.dropWhile_append_of_pos fun x hx => hdigit x (by simp [hx])
      rw [List.append_nil] at hall
      have hinteger : afterInteger? (c :: s) = some [] := by
        rw [afterInteger?.eq_2]
        · simp [afterDigits?, hc, hall]
        · rintro t ⟨rfl, -⟩
          exact hzero rfl
      simp [isNumber, hsign, hinteger, afterFraction?, afterExponent?]

/-- The token of a run of characters that are neither blanks nor marks nor quoted. -/
def bare? (s : List Char) : Option Token :=
  if s = ['t', 'r', 'u', 'e'] then some (.bool true)
  else if s = ['f', 'a', 'l', 's', 'e'] then some (.bool false)
  else if s = ['n', 'u', 'l', 'l'] then some .null
  else if isNumber s then some (.number s)
  else none

/-! ## Scanning -/

/-- What the scanner is in the middle of, with the characters so far in reverse. -/
inductive Scan
  | between
  | bare (done : List Char)
  | quoted (done : List Char)
  | escaped (done : List Char)

/-- The tokens of a text, where `at` says what its beginning belongs to. -/
def tokensFrom? : Scan → List Char → Option (List Token)
  | .between, [] => some []
  | .bare done, [] => do return [← bare? done.reverse]
  | .quoted _, [] | .escaped _, [] => none
  | .between, c :: s =>
    if isSpace c then tokensFrom? .between s
    else if c == '"' then tokensFrom? (.quoted []) s
    else match mark? c with
      | some t => (t :: ·) <$> tokensFrom? .between s
      | none => tokensFrom? (.bare [c]) s
  | .bare done, c :: s =>
    if isSpace c then do return (← bare? done.reverse) :: (← tokensFrom? .between s)
    else if c == '"' then do return (← bare? done.reverse) :: (← tokensFrom? (.quoted []) s)
    else match mark? c with
      | some t => do return (← bare? done.reverse) :: t :: (← tokensFrom? .between s)
      | none => tokensFrom? (.bare (c :: done)) s
  | .quoted done, c :: s =>
    if c == '"' then do return .text (← pieces? done.reverse) :: (← tokensFrom? .between s)
    else if c.toNat < 0x20 then none
    else if c == '\\' then tokensFrom? (.escaped (c :: done)) s
    else tokensFrom? (.quoted (c :: done)) s
  | .escaped done, c :: s =>
    if c.toNat < 0x20 then none else tokensFrom? (.quoted (c :: done)) s

def tokens? (s : List Char) : Option (List Token) := tokensFrom? .between s

/-! ## What is written, among the tokens -/

section

variable {c : Char} (done s : List Char)

theorem tokensFrom?_plain (hquote : c ≠ '"') (hslash : c ≠ '\\') (hc : 0x20 ≤ c.toNat) :
    tokensFrom? (.quoted done) (c :: s) = tokensFrom? (.quoted (c :: done)) s := by
  rw [tokensFrom?, if_neg (by simpa using hquote), if_neg (by omega),
    if_neg (by simpa using hslash)]

theorem tokensFrom?_escaped (hc : 0x20 ≤ c.toNat) :
    tokensFrom? (.quoted done) ('\\' :: c :: s) = tokensFrom? (.quoted (c :: '\\' :: done)) s := by
  show tokensFrom? (.escaped ('\\' :: done)) (c :: s) = _
  rw [tokensFrom?, if_neg (by omega)]

theorem tokensFrom?_hexChar {n : Nat} (h : n < 16) :
    tokensFrom? (.quoted done) (hexChar n :: s) = tokensFrom? (.quoted (hexChar n :: done)) s := by
  have key : ∀ n < 16, hexChar n ≠ '"' ∧ hexChar n ≠ '\\' ∧ 0x20 ≤ (hexChar n).toNat := by decide
  obtain ⟨hquote, hslash, hc⟩ := key n h
  exact tokensFrom?_plain done s hquote hslash hc

/-- A written character ends no quoted text. -/
theorem tokensFrom?_escape (c : Char) :
    tokensFrom? (.quoted done) (escape c ++ s) =
      tokensFrom? (.quoted ((escape c).reverse ++ done)) s := by
  obtain ⟨e, -, he, hw⟩ | ⟨hcontrol, hw⟩ | ⟨hquote, hslash, hc, hw⟩ := escape_cases c
  · have key : ∀ x ∈ shortEscapes, 0x20 ≤ x.1.toNat := by decide
    obtain ⟨front, back, hl, -⟩ := List.lookup_eq_some_iff.1 he
    rw [hw]
    exact tokensFrom?_escaped done s (key (e, c) (by rw [hl]; simp))
  · have hzero : hexChar 0 = '0' := by decide
    rw [hw, ← hzero]
    simp only [List.cons_append, List.nil_append]
    rw [tokensFrom?_escaped _ _ (by decide), tokensFrom?_hexChar _ _ (by decide),
      tokensFrom?_hexChar _ _ (by decide), tokensFrom?_hexChar _ _ (by omega),
      tokensFrom?_hexChar _ _ (by omega)]
    rfl
  · rw [hw]
    exact tokensFrom?_plain done s hquote hslash hc

theorem tokensFrom?_flatMap_escape (t : List Char) :
    tokensFrom? (.quoted done) (t.flatMap escape ++ s) =
      tokensFrom? (.quoted ((t.flatMap escape).reverse ++ done)) s := by
  induction t generalizing done with
  | nil => rfl
  | cons c t ih =>
    rw [List.flatMap_cons, List.append_assoc, tokensFrom?_escape, ih, List.reverse_append,
      List.append_assoc]

end

/-- A written text is one token, and its pieces are read back as the text. -/
theorem tokensFrom?_quote (t : String) :
    ∃ ps, characters? ps = some t.toList ∧
      ∀ s, tokensFrom? .between ((quote t).toList ++ s) =
        (.text ps :: ·) <$> tokensFrom? .between s := by
  obtain ⟨ps, hp, hc⟩ := Option.bind_eq_some_iff.1 (characters?_escape t.toList)
  refine ⟨ps, hc, fun s => ?_⟩
  rw [quote, String.toList_ofList, List.append_assoc, List.cons_append]
  show tokensFrom? (.quoted []) (t.toList.flatMap escape ++ '"' :: s) = _
  rw [tokensFrom?_flatMap_escape, List.append_nil, tokensFrom?, if_pos (by decide),
    List.reverse_reverse, hp]
  cases tokensFrom? .between s <;> rfl

theorem tokensFrom?_mark {m : Char} {t : Token} (hm : mark? m = some t) (hs : isSpace m = false)
    (hq : m ≠ '"') (s : List Char) :
    tokensFrom? .between (m :: s) = (t :: ·) <$> tokensFrom? .between s := by
  rw [tokensFrom?, hs, if_neg Bool.false_ne_true, if_neg (by simpa using hq), hm]

/-- The character goes on with a token that is not quoted. -/
def isBare (c : Char) : Bool := !isSpace c && c != '"' && (mark? c).isNone

theorem tokensFrom?_bare {w : List Char} (hw : ∀ c ∈ w, isBare c = true) {m : Char} {t : Token}
    (hm : mark? m = some t) (hs : isSpace m = false) (hq : m ≠ '"') (done s : List Char) :
    tokensFrom? (.bare done) (w ++ m :: s) = do
      return (← bare? (done.reverse ++ w)) :: t :: (← tokensFrom? .between s) := by
  induction w generalizing done with
  | nil =>
    rw [List.nil_append, List.append_nil, tokensFrom?, hs, if_neg Bool.false_ne_true,
      if_neg (by simpa using hq), hm]
  | cons c w ih =>
    have hc := hw c (by simp)
    simp only [isBare, Bool.and_eq_true, Bool.not_eq_true', bne_iff_ne, Option.isNone_iff_eq_none]
      at hc
    rw [List.cons_append, tokensFrom?, hc.1.1, if_neg Bool.false_ne_true,
      if_neg (by simpa using hc.1.2), hc.2]
    show tokensFrom? (.bare (c :: done)) (w ++ m :: s) = _
    rw [ih fun x hx => hw x (by simp [hx])]
    simp

theorem isBare_of_isDigit {c : Char} (h : c.isDigit = true) : isBare c = true := by
  have key : ∀ n < 58, 48 ≤ n → isBare (Char.ofNat n) = true := by decide
  have h' := key c.toNat
  rw [Char.ofNat_toNat] at h'
  simp only [Char.isDigit, Bool.and_eq_true, decide_eq_true_eq] at h
  exact h' (Nat.lt_succ_of_le h.2) h.1

theorem bare?_of_isDigit {c : Char} {w : List Char} (hc : c.isDigit = true)
    (hw : isNumber (c :: w) = true) : bare? (c :: w) = some (.number (c :: w)) := by
  have hletter {x : Char} (hx : x.isDigit = false) : c ≠ x := by
    rintro rfl
    exact absurd hc (by simp [hx])
  have ht : c ≠ 't' := hletter rfl
  have hf : c ≠ 'f' := hletter rfl
  have hn : c ≠ 'n' := hletter rfl
  simp [bare?, ht, hf, hn, hw]

/-- A number in front of a mark is one token. -/
theorem tokensFrom?_decimal (n : Nat) {m : Char} {t : Token} (hm : mark? m = some t)
    (hs : isSpace m = false) (hq : m ≠ '"') (s : List Char) :
    tokensFrom? .between ((Text.decimal n).toList ++ m :: s) =
      (fun ts => .number (Text.decimal n).toList :: t :: ts) <$> tokensFrom? .between s := by
  have hdigit : ∀ c ∈ (Text.decimal n).toList, c.isDigit = true :=
    fun c => Text.isDigit_of_mem_decimal
  have hnumber := isNumber_decimal n
  have hne := Text.decimal_ne_nil n
  generalize (Text.decimal n).toList = w at hdigit hnumber hne
  cases w with
  | nil => exact absurd rfl hne
  | cons c w =>
    have hc := isBare_of_isDigit (hdigit c (by simp))
    have hbare : bare? (c :: w) = some (.number (c :: w)) := by
      have hletter {x : Char} (hx : x.isDigit = false) : c ≠ x := by
        rintro rfl
        exact absurd (hdigit c (by simp)) (by simp [hx])
      have ht : c ≠ 't' := hletter rfl
      have hf : c ≠ 'f' := hletter rfl
      have hn : c ≠ 'n' := hletter rfl
      simp [bare?, ht, hf, hn, hnumber]
    simp only [isBare, Bool.and_eq_true, Bool.not_eq_true', bne_iff_ne, Option.isNone_iff_eq_none]
      at hc
    rw [List.cons_append, tokensFrom?, hc.1.1, if_neg Bool.false_ne_true,
      if_neg (by simpa using hc.1.2), hc.2]
    show tokensFrom? (.bare [c]) (w ++ m :: s) = _
    rw [tokensFrom?_bare (fun x hx => isBare_of_isDigit (hdigit x (by simp [hx]))) hm hs hq]
    show (do return (← bare? (c :: w)) :: t :: (← tokensFrom? .between s)) = _
    rw [bare?_of_isDigit (hdigit c (by simp)) hnumber]
    cases tokensFrom? .between s <;> rfl

end HackVM.Json
