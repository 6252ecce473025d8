import ProjectRoots.Json.Numeral
import ProjectRoots.Json.Quoted

/- The tokens of JSON. `lex` cuts a text into tokens, passing over blanks between them; every token
   takes at least one character (`readToken_length_lt`), so the cutting ends. -/
namespace ProjectRoots.Json

/-- What a JSON text is a sequence of. -/
inductive Token
  | openArray
  | closeArray
  | openObject
  | closeObject
  | comma
  | colon
  | null
  | bool (value : Bool)
  | number (value : Numeral)
  /-- A quoted text; `none` if it has half of a character alone. -/
  | string (value : Option String)

/-- Blanks are space, tab, line feed and carriage return. -/
def isBlank (c : Char) : Bool :=
  c == ' ' || c == '\t' || c == '\n' || c == '\r'

/-- The rest behind a word. -/
def readWord (word text : List Char) : Option (List Char) :=
  if word.isPrefixOf text then some (text.drop word.length) else none

/-- The tokens that are one character. -/
def mark? (c : Char) : Option Token :=
  if c = '[' then some .openArray
  else if c = ']' then some .closeArray
  else if c = '{' then some .openObject
  else if c = '}' then some .closeObject
  else if c = ',' then some .comma
  else if c = ':' then some .colon
  else none

/-- The token that begins with `c`, and what follows it. -/
def readToken (c : Char) (rest : List Char) : Option (Token × List Char) :=
  if let some token := mark? c then some (token, rest)
  else if c = '"' then (readQuoted rest).map fun read => (.string read.1, read.2)
  else if c = 'n' then (readWord ['u', 'l', 'l'] rest).map fun rest => (.null, rest)
  else if c = 't' then (readWord ['r', 'u', 'e'] rest).map fun rest => (.bool true, rest)
  else if c = 'f' then (readWord ['a', 'l', 's', 'e'] rest).map fun rest => (.bool false, rest)
  else (Numeral.read (c :: rest)).map fun read => (.number read.1, read.2)

theorem readWord_length_le {word text rest : List Char} (h : readWord word text = some rest) :
    rest.length ≤ text.length := by
  unfold readWord at h
  split at h
  · cases h
    rw [List.length_drop]
    omega
  · cases h

theorem readQuoted_length_lt {text rest : List Char} {value : Option String}
    (h : readQuoted text = some (value, rest)) : rest.length < text.length := by
  obtain ⟨read, hr, he⟩ := Option.map_eq_some_iff.1 h
  cases he
  exact readPieces_length_lt hr

theorem readToken_length_lt {c : Char} {text rest : List Char} {token : Token}
    (h : readToken c text = some (token, rest)) : rest.length < (c :: text).length := by
  have hword : ∀ (word : List Char) (t : Token),
      (readWord word text).map (fun r => (t, r)) = some (token, rest) →
        rest.length < (c :: text).length := by
    intro word t hw
    obtain ⟨tail, ht, he⟩ := Option.map_eq_some_iff.1 hw
    cases he
    exact Nat.lt_succ_of_le (readWord_length_le ht)
  unfold readToken at h
  split at h
  · cases h
    exact Nat.lt_succ_self _
  split at h
  · obtain ⟨read, hr, he⟩ := Option.map_eq_some_iff.1 h
    cases he
    exact Nat.lt_succ_of_lt (readQuoted_length_lt hr)
  split at h
  · exact hword _ _ h
  split at h
  · exact hword _ _ h
  split at h
  · exact hword _ _ h
  · obtain ⟨read, hr, he⟩ := Option.map_eq_some_iff.1 h
    cases he
    exact Numeral.read_length_lt hr

/-- The tokens of a text. -/
def lex : List Char → Option (List Token)
  | [] => some []
  | c :: text =>
    if isBlank c then lex text
    else
      match _step : readToken c text with
      | none => none
      | some (token, rest) => (lex rest).map (token :: ·)
termination_by text => text.length
decreasing_by
  · exact Nat.lt_succ_self _
  · exact readToken_length_lt _step

/-- A token as written. -/
def Token.text : Token → List Char
  | openArray => ['[']
  | closeArray => [']']
  | openObject => ['{']
  | closeObject => ['}']
  | comma => [',']
  | colon => [':']
  | null => ['n', 'u', 'l', 'l']
  | bool true => ['t', 'r', 'u', 'e']
  | bool false => ['f', 'a', 'l', 's', 'e']
  | number n => n.text
  | string s => writeQuoted s

/-- Whether a reader that holds values in memory accepts the token: a text is one, and a number
is finite as a double. -/
def Token.isHeld : Token → Bool
  | string s => s.isSome
  | number n => n.fitsDouble
  | _ => true

/-- Whether arrays and objects nest at most `limit` deep, `level` of them being open already. -/
def nestsWithin (limit : Nat) : Nat → List Token → Bool
  | _, [] => true
  | level, token :: rest =>
    match token with
    | .openArray | .openObject => decide (level < limit) && nestsWithin limit (level + 1) rest
    | .closeArray | .closeObject => nestsWithin limit (level - 1) rest
    | _ => nestsWithin limit level rest

end ProjectRoots.Json
