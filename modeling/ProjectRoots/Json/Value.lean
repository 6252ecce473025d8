import ProjectRoots.Json.Token

/- JSON values. A value is written as a sequence of tokens without blanks (`Value.tokens`), and a
   sequence of tokens is read from left to right (`Value.ofTokens?`): the state between two tokens
   says what may follow and in which arrays and objects the reader is, so values may nest to any
   depth. -/
namespace ProjectRoots.Json

/-- A JSON value. Texts with half of a character alone are kept apart as `none`, and an object
keeps its members as they were written. -/
inductive Value
  | null
  | bool (value : Bool)
  | number (value : Numeral)
  | string (value : Option String)
  | array (items : List Value)
  | object (members : List (Option String × Value))

instance : Inhabited Value :=
  ⟨.null⟩

namespace Value

/-- Put a comma between sequences of tokens. -/
def commaSeparated : List (List Token) → List Token
  | [] => []
  | [last] => last
  | first :: rest => first ++ .comma :: commaSeparated rest

mutual

/-- The tokens of a value. -/
def tokens : Value → List Token
  | null => [.null]
  | bool b => [.bool b]
  | number n => [.number n]
  | string s => [.string s]
  | array items => .openArray :: commaSeparated (itemTokens items) ++ [.closeArray]
  | object members => .openObject :: commaSeparated (memberTokens members) ++ [.closeObject]

/-- The tokens of each item of an array. -/
def itemTokens : List Value → List (List Token)
  | [] => []
  | item :: rest => tokens item :: itemTokens rest

/-- The tokens of each member of an object. -/
def memberTokens : List (Option String × Value) → List (List Token)
  | [] => []
  | (key, value) :: rest => (.string key :: .colon :: tokens value) :: memberTokens rest

end

/-- Where a value stands: alone, or in an array or object with what was read of it before, last
first. -/
inductive Place
  | top
  | item (done : List Value) (outer : Place)
  | member (done : List (Option String × Value)) (key : Option String) (outer : Place)

/-- What the reader expects next. -/
inductive Expecting
  /-- A value. -/
  | value (place : Place)
  /-- A value, or the end of the array that was just opened. -/
  | firstItem (outer : Place)
  /-- A key, or the end of the object that was just opened. -/
  | firstKey (outer : Place)
  /-- A key. -/
  | key (done : List (Option String × Value)) (outer : Place)
  /-- The colon behind a key. -/
  | colon (done : List (Option String × Value)) (key : Option String) (outer : Place)
  /-- What may follow the value. -/
  | done (value : Value) (place : Place)

/-- Read the first token of a value. -/
def begin (place : Place) : Token → Option Expecting
  | .null => some (.done .null place)
  | .bool b => some (.done (.bool b) place)
  | .number n => some (.done (.number n) place)
  | .string s => some (.done (.string s) place)
  | .openArray => some (.firstItem place)
  | .openObject => some (.firstKey place)
  | _ => none

/-- Read what follows a value. -/
def continue? (value : Value) : Place → Token → Option Expecting
  | .item done outer, .comma => some (.value (.item (value :: done) outer))
  | .item done outer, .closeArray => some (.done (.array (value :: done).reverse) outer)
  | .member done key outer, .comma => some (.key ((key, value) :: done) outer)
  | .member done key outer, .closeObject =>
    some (.done (.object ((key, value) :: done).reverse) outer)
  | _, _ => none

/-- Read one token. -/
def step : Expecting → Token → Option Expecting
  | .value place, token => begin place token
  | .firstItem outer, .closeArray => some (.done (.array []) outer)
  | .firstItem outer, token => begin (.item [] outer) token
  | .firstKey outer, .closeObject => some (.done (.object []) outer)
  | .firstKey outer, .string key => some (.colon [] key outer)
  | .key done outer, .string key => some (.colon done key outer)
  | .colon done key outer, .colon => some (.value (.member done key outer))
  | .done value place, token => continue? value place token
  | _, _ => none

/-- The value that was read, if the reader is at its end. -/
def finished? : Expecting → Option Value
  | .done value .top => some value
  | _ => none

/-- The value that a sequence of tokens is. -/
def ofTokens? (tokens : List Token) : Option Value :=
  (tokens.foldlM step (.value .top)).bind finished?

/-- The value that a text is; blanks may stand around every token. -/
def ofText? (text : String) : Option Value :=
  (lex text.toList).bind ofTokens?

/-- The value as a text without blanks. -/
def text (value : Value) : String :=
  String.ofList (value.tokens.flatMap Token.text)

/-- A text as a value. -/
def ofString (s : String) : Value :=
  string (some s)

/-- An object from keys and values. -/
def ofMembers (members : List (String × Value)) : Value :=
  object (members.map fun member => (some member.1, member.2))

end Value

end ProjectRoots.Json
