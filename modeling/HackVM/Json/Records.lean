import HackVM.Json.Value
import HackVM.Location
import HackVM.Options

/-!
# Options and locations in JSON

Options are read from a record with two fields, each of which may be missing and then has its
default. A location is a record too, but has no defaults, and its line has 32 bits.
-/

namespace HackVM

open Json

namespace Options

def fieldNames : List String := ["emit_source_comments", "bootstrap"]

/-- A field's value, or what it is when the field is missing. -/
def fieldOr {α : Type} (default : α) (read : Value → Option α) : Option Value → Option α
  | none => some default
  | some v => read v

def ofJson? (s : String) : Option Options := do
  match ← (← Json.read? s).record? fieldNames with
  | [comments, policy] =>
    return ⟨← fieldOr default.sourceComments Value.bool? comments,
      ← fieldOr default.bootstrap
        (fun v => v.choice?.bind BootstrapPolicy.ofKeyword?) policy⟩
  | _ => none

def toJson (o : Options) : String :=
  "\x7b\"emit_source_comments\":" ++ (if o.sourceComments then "true" else "false") ++
    ",\"bootstrap\":" ++ quote o.bootstrap.keyword ++ "\x7d"

/-- Written options are read back. -/
theorem ofJson?_toJson (o : Options) : ofJson? o.toJson = some o := by
  obtain ⟨comments, policy⟩ := o
  cases comments <;> cases policy <;> decide +kernel

end Options

namespace Location

def fieldNames : List String := ["unit", "line"]

/-- Line numbers have thirty-two bits. -/
def maxLine : Nat := 4294967295

def ofJson? (s : String) : Option Location := do
  match ← (← Json.read? s).record? fieldNames with
  | [some unit, some line] =>
    return ⟨← unit.text?, ← line.natural?.filter (· ≤ maxLine)⟩
  | _ => none

def toJson (l : Location) : String :=
  "\x7b\"unit\":" ++ quote l.unit ++ ",\"line\":" ++ Text.decimal l.line ++ "\x7d"

theorem toList_toJson (l : Location) :
    l.toJson.toList = '\x7b' :: ((quote "unit").toList ++ ':' :: ((quote l.unit).toList ++ ',' ::
      ((quote "line").toList ++ ':' :: ((Text.decimal l.line).toList ++ ['\x7d'])))) := by
  have hunit : (quote "unit").toList = "\"unit\"".toList := by decide
  have hline : (quote "line").toList = "\"line\"".toList := by decide
  rw [hunit, hline, toJson]
  simp

/-- A written location is an object with its two fields. -/
theorem read?_toJson (l : Location) :
    ∃ unit key key', characters? unit = some l.unit.toList ∧
      characters? key = some "unit".toList ∧ characters? key' = some "line".toList ∧
      Json.read? l.toJson =
        some (.object [(key, .text unit), (key', .number (Text.decimal l.line).toList)]) := by
  obtain ⟨unit, hunit, htext⟩ := tokensFrom?_quote l.unit
  obtain ⟨key, hkey, hfirst⟩ := tokensFrom?_quote "unit"
  obtain ⟨key', hkey', hsecond⟩ := tokensFrom?_quote "line"
  refine ⟨unit, key, key', hunit, hkey, hkey', ?_⟩
  rw [Json.read?, tokens?, toList_toJson, tokensFrom?_mark rfl rfl (by decide), hfirst,
    tokensFrom?_mark rfl rfl (by decide), htext, tokensFrom?_mark rfl rfl (by decide), hsecond,
    tokensFrom?_mark rfl rfl (by decide), tokensFrom?_decimal l.line rfl rfl (by decide)]
  rfl

/-- A written location is read back, whatever the name of its unit, if its line has a number of
thirty-two bits. -/
theorem ofJson?_toJson {l : Location} (h : l.line ≤ maxLine) : ofJson? l.toJson = some l := by
  obtain ⟨unit, key, key', hunit, hkey, hkey', hread⟩ := read?_toJson l
  have hrecord : (Value.object [(key, .text unit),
      (key', .number (Text.decimal l.line).toList)]).record? fieldNames =
      some [some (.text unit), some (.number (Text.decimal l.line).toList)] := by
    have hnamed : Value.named? [(key, .text unit), (key', .number (Text.decimal l.line).toList)] =
        some [("unit", .text unit), ("line", .number (Text.decimal l.line).toList)] := by
      simp [Value.named?, hkey, hkey']
    rw [Value.record?, hnamed]
    rfl
  have htext : (Value.text unit).text? = some l.unit := by
    rw [Value.text?, hunit]
    simp
  have hnatural : (Value.number (Text.decimal l.line).toList).natural? = some l.line := by
    have hdigits : (Text.decimal l.line).toList.all Char.isDigit = true :=
      List.all_eq_true.2 fun _ hc => Text.isDigit_of_mem_decimal hc
    rw [Value.natural?, if_pos hdigits, Text.decimal_toList,
      Nat.ofDigitChars_toDigits (by decide) (by decide)]
  have hfilter : (some l.line).filter (· ≤ maxLine) = some l.line := by
    simp [Option.filter, h]
  simp [ofJson?, hread, hrecord, htext, hnatural, hfilter]

example : ofJson? "\x7b\"unit\":\"a\\t\\\"\",\"line\":7\x7d" = some ⟨"a\t\"", 7⟩ := by decide

end Location

end HackVM
