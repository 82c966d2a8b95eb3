import HackVM.Json.Token
import HackVM.Repetition

/-!
# JSON values

A value is read token by token. What is still open is kept on a stack, innermost first, so
that values may be nested to any depth.
-/

namespace HackVM.Json

/-- A value, with numbers and quoted texts as they are written. -/
inductive Value
  | null
  | bool (b : Bool)
  | number (text : List Char)
  | text (pieces : List Piece)
  | array (elements : List Value)
  | object (entries : List (List Piece × Value))

/-- An array or an object that is still open, with its complete parts in reverse. -/
inductive Frame
  | array (done : List Value)
  | object (done : List (List Piece × Value)) (key : List Piece)

/-- What may come next. -/
inductive Reading
  | value (stack : List Frame)
  | firstElement (stack : List Frame)
  | firstKey (stack : List Frame)
  | key (done : List (List Piece × Value)) (stack : List Frame)
  | colon (done : List (List Piece × Value)) (key : List Piece) (stack : List Frame)
  | after (value : Value) (stack : List Frame)

namespace Reading

/-- A token where a value is to begin. -/
def begin (stack : List Frame) : Token → Option Reading
  | .null => some (.after .null stack)
  | .bool b => some (.after (.bool b) stack)
  | .number s => some (.after (.number s) stack)
  | .text ps => some (.after (.text ps) stack)
  | .openBracket => some (.firstElement stack)
  | .openBrace => some (.firstKey stack)
  | _ => none

def next : Reading → Token → Option Reading
  | .value stack, t => begin stack t
  | .firstElement stack, .closeBracket => some (.after (.array []) stack)
  | .firstElement stack, t => begin (.array [] :: stack) t
  | .firstKey stack, .closeBrace => some (.after (.object []) stack)
  | .firstKey stack, .text k => some (.colon [] k stack)
  | .key done stack, .text k => some (.colon done k stack)
  | .colon done k stack, .colon => some (.value (.object done k :: stack))
  | .after v (.array done :: stack), .comma => some (.value (.array (v :: done) :: stack))
  | .after v (.array done :: stack), .closeBracket =>
    some (.after (.array (v :: done).reverse) stack)
  | .after v (.object done k :: stack), .comma => some (.key ((k, v) :: done) stack)
  | .after v (.object done k :: stack), .closeBrace =>
    some (.after (.object ((k, v) :: done).reverse) stack)
  | _, _ => none

/-- The value that has been read, if nothing is open. -/
def result? : Reading → Option Value
  | .after v [] => some v
  | _ => none

end Reading

/-- The value that a text consists of. -/
def read? (s : String) : Option Value := do
  let ts ← tokens? s.toList
  let last ← ts.foldlM Reading.next (.value [])
  last.result?

/-! ## Records

A record has named fields. It is written as an object, or as an array of the values of its
fields in order, from which the last ones may be missing. In an object other names may occur,
but none of its own twice. -/

namespace Value

/-- The entries with their names put together. -/
def named? (entries : List (List Piece × Value)) : Option (List (String × Value)) :=
  entries.mapM fun e => do return (String.ofList (← characters? e.1), e.2)

/-- The values of the fields, in the order of `names`. -/
def record? (names : List String) : Value → Option (List (Option Value))
  | object entries => do
    let all ← named? entries
    let own := all.filter fun e => names.contains e.1
    if (firstRepeated (own.map Prod.fst)).isSome then none
    else return names.map fun n => own.lookup n
  | array elements =>
    if elements.length ≤ names.length then
      some ((List.range names.length).map fun i => elements[i]?)
    else none
  | _ => none

def bool? : Value → Option Bool
  | bool b => some b
  | _ => none

def text? : Value → Option String
  | text ps => String.ofList <$> characters? ps
  | _ => none

/-- A number that is written with digits alone. -/
def natural? : Value → Option Nat
  | number s => if s.all Char.isDigit then some (Nat.ofDigitChars 10 s 0) else none
  | _ => none

/-- One of several names: a text, or an object with the name as its only key and no value. -/
def choice? : Value → Option String
  | text ps => String.ofList <$> characters? ps
  | object [(k, null)] => String.ofList <$> characters? k
  | _ => none

end Value

end HackVM.Json
