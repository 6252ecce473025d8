/- Reading UTF-8. The reader takes one byte at a time and keeps what it has of an unfinished
   character. A byte that cannot go on with the character begins anew, so every fault stands for
   the longest beginning of a character in its place. -/
namespace ProjectRoots.Utf8

/-- An unfinished character: its value so far, how many bytes it misses, and the range of the next
one. -/
structure Unfinished where
  value : Nat
  missing : Nat
  low : Nat
  high : Nat

/-- What a byte yields at the beginning of a character: a character, a fault, or an unfinished
character. The ranges leave out overlong forms, the halves of UTF-16 and what is beyond the last
character. -/
def begin (b : Nat) : List (Option Char) × Option Unfinished :=
  if b < 0x80 then ([some (Char.ofNat b)], none)
  else if b < 0xC2 then ([none], none)
  else if b < 0xE0 then ([], some ⟨b - 0xC0, 1, 0x80, 0xBF⟩)
  else if b = 0xE0 then ([], some ⟨0, 2, 0xA0, 0xBF⟩)
  else if b = 0xED then ([], some ⟨0xD, 2, 0x80, 0x9F⟩)
  else if b < 0xF0 then ([], some ⟨b - 0xE0, 2, 0x80, 0xBF⟩)
  else if b = 0xF0 then ([], some ⟨0, 3, 0x90, 0xBF⟩)
  else if b < 0xF4 then ([], some ⟨b - 0xF0, 3, 0x80, 0xBF⟩)
  else if b = 0xF4 then ([], some ⟨4, 3, 0x80, 0x8F⟩)
  else ([none], none)

/-- What a byte yields behind an unfinished character. -/
def next (u : Unfinished) (b : Nat) : List (Option Char) × Option Unfinished :=
  if u.low ≤ b ∧ b ≤ u.high then
    let value := u.value * 64 + (b - 0x80)
    if u.missing = 1 then ([some (Char.ofNat value)], none)
    else ([], some ⟨value, u.missing - 1, 0x80, 0xBF⟩)
  else
    let (read, state) := begin b
    (none :: read, state)

/-- The characters that bytes denote, with `none` for every fault. -/
def readFrom : Option Unfinished → List UInt8 → List (Option Char)
  | none, [] => []
  | some _, [] => [none]
  | none, b :: rest =>
    let (read, state) := begin b.toNat
    read ++ readFrom state rest
  | some u, b :: rest =>
    let (read, state) := next u b.toNat
    read ++ readFrom state rest

/-- The text that bytes denote, if there is no fault in them. -/
def decode? (bytes : List UInt8) : Option (List Char) :=
  (readFrom none bytes).mapM id

/-- The text that bytes denote, with the replacement character for every fault. -/
def decodeLossy (bytes : List UInt8) : List Char :=
  (readFrom none bytes).map (·.getD '\ufffd')

end ProjectRoots.Utf8
