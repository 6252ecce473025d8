import ProjectRoots.Text.Decimal

/- Numbers as JSON writes them. A numeral keeps its digits: only a reader that wants a number of
   some type decides whether the digits denote one. `fitsDouble` says whether a reader that holds
   numbers as doubles accepts the numeral. -/
namespace ProjectRoots.Json

/-- A number as written: sign, digits before the point, digits after it, and the power of ten with
its sign. -/
structure Numeral where
  negative : Bool := false
  whole : List Char
  fraction : List Char := []
  power : Option (Bool × List Char) := none
deriving DecidableEq

namespace Numeral

/-- The digits in front, and what follows them. -/
def spanDigits (text : List Char) : List Char × List Char :=
  (text.takeWhile Char.isDigit, text.dropWhile Char.isDigit)

/-- Digits before the point: at least one, and no zero in front of others. -/
def readWhole (text : List Char) : Option (List Char × List Char) :=
  match spanDigits text with
  | ([], _) => none
  | (d :: ds, rest) => if d = '0' ∧ ds ≠ [] then none else some (d :: ds, rest)

/-- The digits behind a point, if there is one; then there is at least one digit. -/
def readFraction : List Char → Option (List Char × List Char)
  | '.' :: text =>
    match spanDigits text with
    | ([], _) => none
    | (d :: ds, rest) => some (d :: ds, rest)
  | text => some ([], text)

/-- A sign that may be missing: whether it is a minus, and what follows it. -/
def readSign : List Char → Bool × List Char
  | '-' :: text => (true, text)
  | '+' :: text => (false, text)
  | text => (false, text)

/-- The power of ten, if there is one; then it has at least one digit. -/
def readPower : List Char → Option (Option (Bool × List Char) × List Char)
  | c :: text =>
    if c = 'e' ∨ c = 'E' then
      let (negative, text) := readSign text
      match spanDigits text with
      | ([], _) => none
      | (d :: ds, rest) => some (some (negative, d :: ds), rest)
    else some (none, c :: text)
  | [] => some (none, [])

/-- Whether a minus stands in front, and what follows it. -/
def readMinus : List Char → Bool × List Char
  | '-' :: text => (true, text)
  | text => (false, text)

/-- The numeral in front, and what follows it. -/
def read (text : List Char) : Option (Numeral × List Char) :=
  let (negative, text) := readMinus text
  match readWhole text with
  | none => none
  | some (whole, text) =>
    match readFraction text with
    | none => none
    | some (fraction, text) =>
      match readPower text with
      | none => none
      | some (power, rest) => some (⟨negative, whole, fraction, power⟩, rest)

/-- The numeral as written. -/
def text (n : Numeral) : List Char :=
  (if n.negative then ['-'] else []) ++ n.whole ++
    (if n.fraction = [] then [] else '.' :: n.fraction) ++
    match n.power with
    | none => []
    | some (negative, ds) => 'e' :: (if negative then ['-'] else []) ++ ds

/-- The numeral of a natural number. -/
def ofNat (n : Nat) : Numeral where
  whole := digits n

/-- The natural number that the numeral denotes, if it is written with digits alone. -/
def toNat? (n : Numeral) : Option Nat :=
  if n.negative ∨ n.fraction ≠ [] ∨ n.power ≠ none then none else some (ofDigits n.whole)

theorem readMinus_length_le (text : List Char) : (readMinus text).2.length ≤ text.length := by
  unfold readMinus
  split <;> simp

theorem length_of_spanDigits {text ds rest : List Char} (h : spanDigits text = (ds, rest)) :
    ds.length + rest.length = text.length := by
  cases h
  rw [← List.length_append, List.takeWhile_append_dropWhile]

theorem readWhole_length_lt {text rest whole : List Char}
    (h : readWhole text = some (whole, rest)) : rest.length < text.length := by
  unfold readWhole at h
  split at h
  · cases h
  · rename_i d ds tail hspan
    split at h
    · cases h
    · cases h
      have := length_of_spanDigits hspan
      rw [List.length_cons] at this
      omega

theorem readFraction_length_le {text rest fraction : List Char}
    (h : readFraction text = some (fraction, rest)) : rest.length ≤ text.length := by
  unfold readFraction at h
  split at h
  · split at h
    · cases h
    · rename_i hspan
      cases h
      have := length_of_spanDigits hspan
      rw [List.length_cons]
      omega
  · cases h
    exact Nat.le_refl _

theorem readSign_length_le (text : List Char) : (readSign text).2.length ≤ text.length := by
  unfold readSign
  split <;> simp

theorem readPower_length_le {text rest : List Char} {power : Option (Bool × List Char)}
    (h : readPower text = some (power, rest)) : rest.length ≤ text.length := by
  unfold readPower at h
  split at h
  · rename_i c tail
    split at h
    · simp only at h
      split at h
      · cases h
      · rename_i hspan
        cases h
        have := length_of_spanDigits hspan
        have := readSign_length_le tail
        rw [List.length_cons]
        omega
    · cases h
      exact Nat.le_refl _
  · cases h
    exact Nat.le_refl _

theorem read_length_lt {text rest : List Char} {n : Numeral} (h : read text = some (n, rest)) :
    rest.length < text.length := by
  simp only [read] at h
  split at h
  · cases h
  rename_i whole afterWhole hwhole
  split at h
  · cases h
  rename_i fraction afterFraction hfraction
  split at h
  · cases h
  rename_i power tail hpower
  cases h
  have := readMinus_length_le text
  have := readWhole_length_lt hwhole
  have := readFraction_length_le hfraction
  have := readPower_length_le hpower
  omega

theorem toNat?_ofNat (n : Nat) : (ofNat n).toNat? = some n := by
  simp [toNat?, ofNat, ofDigits_digits]

/-- Take up digits as long as the number fits into 64 bits: the number, and how many digits are
left over. -/
def takeUp (n : Nat) : List Char → Nat × Nat
  | [] => (n, 0)
  | c :: rest =>
    let next := 10 * n + digitValue c
    if next < UInt64.size then takeUp next rest else (n, rest.length + 1)

/-- The leading digits of the numeral as one number of 64 bits, and the power of ten that it
is to be multiplied by. -/
def scientific (n : Numeral) : Nat × Int :=
  let (high, left) := takeUp 0 n.whole
  let (significand, lost) := takeUp high n.fraction
  let point : Int := left - (n.fraction.length - lost : Nat)
  match n.power with
  | none => (significand, point)
  | some (true, ds) => (significand, point - ofDigits ds)
  | some (false, ds) => (significand, point + ofDigits ds)

/-- The double nearest to a natural number, whatever its size; of two that are equally near the
one with an even significand. -/
def nearestDouble (n : Nat) : Nat :=
  let unit := Nat.pow 2 (n.log2 - 52)
  let half := 2 * (n % unit)
  if half > unit ∨ half = unit ∧ n / unit % 2 = 1 then (n / unit + 1) * unit
  else n / unit * unit

/-- From here on a number is at least as near to `2 ^ 1024`, which is no double, as to the greatest
double. -/
def doubleBound : Nat :=
  Nat.pow 2 1024 - Nat.pow 2 970

/-- Whether the number is finite as a double: significand and power of ten are rounded to doubles
and multiplied, and the product has to stay below the bound. -/
def fitsDouble (n : Numeral) : Bool :=
  let (significand, power) := n.scientific
  significand == 0 ||
    match power with
    | .negSucc _ => true
    | .ofNat e =>
      decide (e ≤ 308) &&
        decide (nearestDouble significand * nearestDouble (Nat.pow 10 e) < doubleBound)

end Numeral

end ProjectRoots.Json
