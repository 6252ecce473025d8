import Mathlib.Data.List.Chain
import ProjectRoots.Json.Token

/- Cutting a text into the tokens that it was written from. Marks, words and texts say themselves
   where they end. A number does not, so what is written behind a number must not look like more of
   it.

     1. `read_ofNat` — a natural number is read back up to the end of its digits.
     2. `readQuoted_writeQuoted` — a text is read back up to its closing quote, whatever characters
        it has.
     3. `readToken_text` — so every token is read back.
     4. `lex_text` — and every sequence of tokens without two numbers in a row. -/
namespace ProjectRoots.Json

/-! ## Numbers -/

/-- The text does not begin with anything that would prolong a number in front of it. -/
def EndsNumber (text : List Char) : Prop :=
  ∀ c ∈ text.head?, c.isDigit = false ∧ c ≠ '.' ∧ c ≠ 'e' ∧ c ≠ 'E'

namespace Numeral

theorem spanDigits_append {ds rest : List Char} (hdigits : ∀ c ∈ ds, c.isDigit = true)
    (hends : EndsNumber rest) : spanDigits (ds ++ rest) = (ds, rest) := by
  unfold spanDigits
  rw [List.takeWhile_append_of_pos hdigits, List.dropWhile_append_of_pos hdigits]
  cases rest with
  | nil => simp
  | cons c rest =>
    have hc := (hends c rfl).1
    simp [hc]

theorem readWhole_digits (n : Nat) {rest : List Char} (hends : EndsNumber rest) :
    readWhole (digits n ++ rest) = some (digits n, rest) := by
  have hspan := spanDigits_append (isDigit_of_mem_digits n) hends
  unfold readWhole
  rw [hspan]
  cases hdigits : digits n with
  | nil => exact absurd hdigits (digits_ne_nil n)
  | cons d ds =>
    -- Only the digits of zero begin with a zero, and zero has no other digits.
    have hproper : ¬(d = '0' ∧ ds ≠ []) := by
      rintro ⟨rfl, hmore⟩
      rcases Nat.eq_zero_or_pos n with rfl | hpos
      · rw [digits] at hdigits
        exact hmore (List.cons.inj hdigits).2.symm
      · exact head?_digits hpos (by rw [hdigits]; rfl)
    exact if_neg hproper

theorem readFraction_of_endsNumber {rest : List Char} (hends : EndsNumber rest) :
    readFraction rest = some ([], rest) := by
  unfold readFraction
  split
  · exact absurd rfl (hends '.' rfl).2.1
  · rfl

theorem readPower_of_endsNumber {rest : List Char} (hends : EndsNumber rest) :
    readPower rest = some (none, rest) := by
  cases rest with
  | nil => rfl
  | cons c rest =>
    obtain ⟨_, _, hsmall, hgreat⟩ := hends c rfl
    exact if_neg (not_or.2 ⟨hsmall, hgreat⟩)

theorem readMinus_digits (n : Nat) (rest : List Char) :
    readMinus (digits n ++ rest) = (false, digits n ++ rest) := by
  unfold readMinus
  split
  · rename_i text hminus
    cases hdigits : digits n with
    | nil => exact absurd hdigits (digits_ne_nil n)
    | cons d ds =>
      rw [hdigits] at hminus
      have hd := isDigit_of_mem_digits n d (hdigits ▸ List.mem_cons_self)
      rw [(List.cons.inj hminus).1] at hd
      exact absurd hd (by decide)
  · rfl

theorem read_ofNat (n : Nat) {rest : List Char} (hends : EndsNumber rest) :
    read (digits n ++ rest) = some (ofNat n, rest) := by
  simp only [read, readMinus_digits, readWhole_digits n hends, readFraction_of_endsNumber hends,
    readPower_of_endsNumber hends]
  rfl

theorem text_ofNat (n : Nat) : (ofNat n).text = digits n := by
  simp [text, ofNat]

end Numeral

/-! ## Quoted texts -/

theorem hexUnit?_control : ∀ n < 0x20,
    hexUnit? '0' '0' (hexDigit (n / 16)) (hexDigit (n % 16)) = some n ∧
      isLowUnit n = false ∧ isHighUnit n = false := by
  decide

theorem readPieces_letter {letter c : Char} (hletter : letter ≠ 'u')
    (hmeans : unescape? letter = some c) (rest : List Char) :
    readPieces ('\\' :: letter :: rest) =
      (readPieces rest).map fun read => (.char c :: read.1, read.2) := by
  rw [readPieces.eq_def]
  simp only [if_neg hletter, hmeans, Char.reduceEq, if_false, if_true]

theorem readPieces_plain {c : Char} (hquote : c ≠ '"') (hbackslash : c ≠ '\\')
    (hplain : ¬c.toNat < 0x20) (rest : List Char) :
    readPieces (c :: rest) = (readPieces rest).map fun read => (.char c :: read.1, read.2) := by
  rw [readPieces.eq_def]
  simp only [if_neg hquote, if_neg hbackslash, if_neg hplain]

theorem readPieces_control {n : Nat} (hcontrol : n < 0x20) (rest : List Char) :
    readPieces ('\\' :: 'u' :: '0' :: '0' :: hexDigit (n / 16) :: hexDigit (n % 16) :: rest) =
      (readPieces rest).map fun read => (.unit n :: read.1, read.2) := by
  rw [readPieces.eq_def]
  simp only [(hexUnit?_control n hcontrol).1, Char.reduceEq, if_false, if_true]

/-- A character as it is written is read as one piece, which makes up the character. -/
theorem exists_piece (c : Char) : ∃ piece,
    (∀ rest, readPieces (escape c ++ rest) =
      (readPieces rest).map fun read => (piece :: read.1, read.2)) ∧
    ∀ pieces, joinPieces (piece :: pieces) = (joinPieces pieces).map (c :: ·) := by
  -- A control character without a letter of its own is named by its number, and is a piece of the
  -- other kind.
  fun_cases escape c with
  | case8 _ _ _ _ _ _ _ hcontrol =>
    refine ⟨.unit c.toNat, readPieces_control hcontrol, fun pieces => ?_⟩
    obtain ⟨_, hlow, hhigh⟩ := hexUnit?_control c.toNat hcontrol
    rw [joinPieces.eq_def]
    simp only [hlow, hhigh, Char.ofNat_toNat, Bool.false_eq_true, if_false]
  | case9 hquote hbackslash _ _ _ _ _ hplain =>
    exact ⟨.char c, readPieces_plain hquote hbackslash hplain, fun _ => rfl⟩
  | _ =>
    rename_i hletter
    subst hletter
    exact ⟨.char _, readPieces_letter (by decide) rfl, fun _ => rfl⟩

theorem exists_pieces (cs rest : List Char) : ∃ pieces,
    readPieces (cs.flatMap escape ++ '"' :: rest) = some (pieces, rest) ∧
      joinPieces pieces = some cs := by
  induction cs with
  | nil => exact ⟨[], by rw [readPieces.eq_def]; rfl, rfl⟩
  | cons c cs ih =>
    obtain ⟨pieces, hread, hjoin⟩ := ih
    obtain ⟨piece, hpiece, hmakes⟩ := exists_piece c
    refine ⟨piece :: pieces, ?_, ?_⟩
    · rw [List.flatMap_cons, List.append_assoc, hpiece, hread]
      rfl
    · rw [hmakes, hjoin]
      rfl

theorem readQuoted_writeQuoted (text : String) (rest : List Char) :
    readQuoted (text.toList.flatMap escape ++ '"' :: rest) = some (some text, rest) := by
  obtain ⟨pieces, hread, hjoin⟩ := exists_pieces text.toList rest
  unfold readQuoted
  rw [hread, Option.map_some, hjoin, Option.map_some, String.ofList_toList]

/-! ## Tokens -/

theorem readWord_append (word rest : List Char) : readWord word (word ++ rest) = some rest := by
  have hprefix : word.isPrefixOf (word ++ rest) = true :=
    List.isPrefixOf_iff_prefix.2 (List.prefix_append word rest)
  rw [readWord, if_pos hprefix, List.drop_left]

namespace Token

/-- A text is one, and a number is a natural number. -/
def IsPlain : Token → Prop
  | number n => ∃ k, n = .ofNat k
  | string s => ∃ text, s = some text
  | _ => True

/-- The token is a number. -/
def isNumber : Token → Bool
  | number _ => true
  | _ => false

/-- The tokens may stand side by side without a blank. -/
def Apart (first second : Token) : Prop :=
  first.isNumber = true → second.isNumber = false

theorem readToken_digit {c : Char} (hdigit : c.isDigit = true) (rest : List Char) :
    isBlank c = false ∧ readToken c rest =
      (Numeral.read (c :: rest)).map fun read => (.number read.1, read.2) := by
  have hother : ∀ other : Char, other.isDigit = false → c ≠ other := by
    rintro other hnone rfl
    rw [hdigit] at hnone
    cases hnone
  simp [isBlank, readToken, mark?, hother]

/-- A token as it is written is read back. -/
theorem readToken_text {token : Token} (hplain : token.IsPlain) {rest : List Char}
    (hends : token.isNumber = true → EndsNumber rest) :
    ∃ c text, token.text = c :: text ∧ isBlank c = false ∧
      readToken c (text ++ rest) = some (token, rest) := by
  cases token with
  | null =>
    refine ⟨'n', _, rfl, rfl, ?_⟩
    exact congrArg (Option.map _) (readWord_append ['u', 'l', 'l'] rest)
  | bool value =>
    cases value with
    | true =>
      refine ⟨'t', _, rfl, rfl, ?_⟩
      exact congrArg (Option.map _) (readWord_append ['r', 'u', 'e'] rest)
    | false =>
      refine ⟨'f', _, rfl, rfl, ?_⟩
      exact congrArg (Option.map _) (readWord_append ['a', 'l', 's', 'e'] rest)
  | number n =>
    obtain ⟨k, rfl⟩ := hplain
    have hread := Numeral.read_ofNat k (hends rfl)
    cases hdigits : digits k with
    | nil => exact absurd hdigits (digits_ne_nil k)
    | cons d ds =>
      have hdigit := isDigit_of_mem_digits k d (hdigits ▸ List.mem_cons_self)
      obtain ⟨hblank, htoken⟩ := readToken_digit hdigit (ds ++ rest)
      rw [hdigits] at hread
      refine ⟨d, ds, (Numeral.text_ofNat k).trans hdigits, hblank, ?_⟩
      rw [htoken, ← List.cons_append, hread]
      rfl
  | string s =>
    obtain ⟨text, rfl⟩ := hplain
    refine ⟨'"', text.toList.flatMap escape ++ ['"'], rfl, rfl, ?_⟩
    rw [List.append_assoc]
    exact congrArg (Option.map _) (readQuoted_writeQuoted text rest)
  | _ => exact ⟨_, [], rfl, rfl, rfl⟩

theorem lex_text_append {token : Token} (hplain : token.IsPlain) {rest : List Char}
    (hends : token.isNumber = true → EndsNumber rest) :
    lex (token.text ++ rest) = (lex rest).map (token :: ·) := by
  obtain ⟨c, text, htext, hblank, hread⟩ := readToken_text hplain hends
  rw [htext, List.cons_append, lex.eq_def]
  simp only [hblank, Bool.false_eq_true, if_false]
  -- The match holds a proof of what it matches on, so `hread` cannot be rewritten in it.
  split
  · rename_i hnone
    rw [hread] at hnone
    cases hnone
  · rename_i hsome
    rw [hread] at hsome
    cases hsome
    rfl

theorem endsNumber_text {token : Token} (hother : token.isNumber = false) (rest : List Char) :
    EndsNumber (token.text ++ rest) := by
  have hmark : ∀ (c : Char) (text : List Char),
      (c.isDigit = false ∧ c ≠ '.' ∧ c ≠ 'e' ∧ c ≠ 'E') → EndsNumber (c :: text) := by
    rintro c text hc _ ⟨⟩
    exact hc
  cases token with
  | number n => cases hother
  | bool value => cases value <;> exact hmark _ _ (by decide)
  | string s => cases s <;> exact hmark _ _ (by decide)
  | _ => exact hmark _ _ (by decide)

/-- Plain tokens are read back from what they are written as, one behind the other. -/
theorem lex_text {tokens : List Token} (hplain : ∀ token ∈ tokens, token.IsPlain)
    (hapart : tokens.IsChain Apart) : lex (tokens.flatMap text) = some tokens := by
  induction tokens with
  | nil => rw [List.flatMap_nil, lex.eq_def]
  | cons token rest ih =>
    obtain ⟨htoken, hrest⟩ := List.forall_mem_cons.1 hplain
    -- Behind a number the text ends, or the next token is written, which is no number.
    have hends : token.isNumber = true → EndsNumber (rest.flatMap text) := by
      intro hnumber
      cases rest with
      | nil => exact nofun
      | cons next rest =>
        rw [List.flatMap_cons]
        exact endsNumber_text ((List.isChain_cons_cons.1 hapart).1 hnumber) _
    rw [List.flatMap_cons, lex_text_append htoken hends, ih hrest hapart.tail]
    rfl

end Token

end ProjectRoots.Json
