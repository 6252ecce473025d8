/- Texts as JSON writes them, between quotes. A character is written as it is or as an escape, and
   an escape with four hexadecimal digits names one UTF-16 unit, so that a character beyond the
   first 65536 takes two of them. A unit that is half of a character and stands alone is allowed
   by the notation, but then there is no text. -/
namespace ProjectRoots.Json

/-- A part of a quoted text: a character, or a unit named by an escape. -/
inductive Piece
  | char (c : Char)
  | unit (n : Nat)

/-- The value of a hexadecimal digit. -/
def hexValue? (c : Char) : Option Nat :=
  if '0' ≤ c ∧ c ≤ '9' then some (c.toNat - '0'.toNat)
  else if 'a' ≤ c ∧ c ≤ 'f' then some (c.toNat - 'a'.toNat + 10)
  else if 'A' ≤ c ∧ c ≤ 'F' then some (c.toNat - 'A'.toNat + 10)
  else none

/-- The hexadecimal digit with this value, in lower case. -/
def hexDigit (n : Nat) : Char :=
  if n < 10 then Char.ofNat ('0'.toNat + n) else Char.ofNat ('a'.toNat + (n - 10))

/-- The unit that four hexadecimal digits name. -/
def hexUnit? (a b c d : Char) : Option Nat :=
  match hexValue? a, hexValue? b, hexValue? c, hexValue? d with
  | some a, some b, some c, some d => some (((a * 16 + b) * 16 + c) * 16 + d)
  | _, _, _, _ => none

/-- The character that a letter stands for behind a backslash. -/
def unescape? (c : Char) : Option Char :=
  if c = '"' then some '"'
  else if c = '\\' then some '\\'
  else if c = '/' then some '/'
  else if c = 'b' then some '\x08'
  else if c = 'f' then some '\x0c'
  else if c = 'n' then some '\n'
  else if c = 'r' then some '\r'
  else if c = 't' then some '\t'
  else none

/-- The pieces up to the closing quote, and what follows it. Control characters have to be
escaped. -/
def readPieces : List Char → Option (List Piece × List Char)
  | [] => none
  | c :: rest =>
    if c = '"' then some ([], rest)
    else if c = '\\' then
      match rest with
      | [] => none
      | e :: rest =>
        if e = 'u' then
          match rest with
          | h₁ :: h₂ :: h₃ :: h₄ :: rest =>
            match hexUnit? h₁ h₂ h₃ h₄ with
            | some n => (readPieces rest).map fun read => (.unit n :: read.1, read.2)
            | none => none
          | _ => none
        else
          match unescape? e with
          | some c => (readPieces rest).map fun read => (.char c :: read.1, read.2)
          | none => none
    else if c.toNat < 0x20 then none
    else (readPieces rest).map fun read => (.char c :: read.1, read.2)

/-- Whether a unit is the first half of a character. -/
def isHighUnit (n : Nat) : Bool :=
  0xD800 ≤ n && n < 0xDC00

/-- Whether a unit is the second half of a character. -/
def isLowUnit (n : Nat) : Bool :=
  0xDC00 ≤ n && n < 0xE000

/-- The characters that the pieces make up, unless a half stands alone. -/
def joinPieces : List Piece → Option (List Char)
  | [] => some []
  | .char c :: rest => (joinPieces rest).map (c :: ·)
  | .unit n :: rest =>
    if isLowUnit n then none
    else if isHighUnit n then
      match rest with
      | .unit m :: rest =>
        if isLowUnit m then
          (joinPieces rest).map
            (Char.ofNat (0x10000 + (n - 0xD800) * 0x400 + (m - 0xDC00)) :: ·)
        else none
      | _ => none
    else (joinPieces rest).map (Char.ofNat n :: ·)

/-- How a character is written between quotes. -/
def escape (c : Char) : List Char :=
  if c = '"' then ['\\', '"']
  else if c = '\\' then ['\\', '\\']
  else if c = '\x08' then ['\\', 'b']
  else if c = '\x0c' then ['\\', 'f']
  else if c = '\n' then ['\\', 'n']
  else if c = '\r' then ['\\', 'r']
  else if c = '\t' then ['\\', 't']
  else if c.toNat < 0x20 then
    ['\\', 'u', '0', '0', hexDigit (c.toNat / 16), hexDigit (c.toNat % 16)]
  else [c]

/-- The text behind an opening quote, if it is one, and what follows the closing quote. -/
def readQuoted (text : List Char) : Option (Option String × List Char) :=
  (readPieces text).map fun read => ((joinPieces read.1).map String.ofList, read.2)

/-- A text between quotes. In place of a text that is none stands half of a character. -/
def writeQuoted (text : Option String) : List Char :=
  match text with
  | some text => '"' :: text.toList.flatMap escape ++ ['"']
  | none => "\"\\ud800\"".toList

theorem readPieces_length_lt {text rest : List Char} {pieces : List Piece}
    (h : readPieces text = some (pieces, rest)) : rest.length < text.length := by
  fun_induction readPieces text generalizing pieces with
  | case1 => cases h
  | case2 tail =>
    cases h
    exact Nat.lt_succ_self _
  | case3 => cases h
  | case4 _ h₁ h₂ h₃ h₄ tail n hn ih =>
    obtain ⟨read, hr, he⟩ := Option.map_eq_some_iff.1 h
    cases he
    have := ih hr
    simp only [List.length_cons]
    omega
  | case5 => cases h
  | case6 => cases h
  | case7 _ e tail he c hc ih =>
    obtain ⟨read, hr, he⟩ := Option.map_eq_some_iff.1 h
    cases he
    have := ih hr
    simp only [List.length_cons]
    omega
  | case8 => cases h
  | case9 => cases h
  | case10 c tail hq hb hc ih =>
    obtain ⟨read, hr, he⟩ := Option.map_eq_some_iff.1 h
    cases he
    have := ih hr
    simp only [List.length_cons]
    omega

end ProjectRoots.Json
