import Mathlib.Data.List.TakeWhile
import NpaCore.Package.JsonSound

/-!
# The JSON parser and the grammar

The parser reads every text of the grammar that is within its limits: it is shown to be maximal
where the grammar is not, over blanks and digits.

## Main result

`parseJsonWithLimits_exact`: the parser accepts the JSON texts within its limits, returns the
values that the grammar assigns, and never stops at a slice or at the bound of a loop.
-/

namespace NpaCore.Package

open NpaCore.Utf8

section Complete

variable {total : Nat} {limits : JsonResourceLimits} {rest : List Char}

/-! ### Bytes -/

theorem head?_encode_cons {c : Char} (low : c.toNat < 128) (rest : List Char) :
    (encode (c :: rest)).head? = some (ascii c) := by
  rw [encode_ascii low]
  rfl

theorem advance_encode {c : Char} (low : c.toNat < 128) (rest : List Char) :
    advance 1 (encode (c :: rest)) = .ok ((), encode rest) := by
  rw [encode_ascii low]
  rfl

theorem takeByte_encode {c : Char} (low : c.toNat < 128) (rest : List Char) :
    takeByte (encode (c :: rest)) = .ok (some (ascii c), encode rest) := by
  rw [encode_ascii low]
  rfl

theorem peek_encode {c : Char} (low : c.toNat < 128) (rest : List Char) :
    peek (encode (c :: rest)) = .ok (some (ascii c), encode (c :: rest)) := by
  rw [peek, head?_encode_cons low]

theorem consume_encode {c : Char} (low : c.toNat < 128) (name : String) (rest : List Char) :
    consumeExpectedByte total (ascii c) name (encode (c :: rest)) = .ok ((), encode rest) := by
  rw [consumeExpectedByte, Parser.bind_eq_ok]
  refine ⟨_, _, takeByte_encode low rest, ?_⟩
  dsimp only
  rw [if_pos rfl]
  rfl

/-- The first character that is there is none of these. -/
def HeadNot (excluded : Char → Bool) (text : List Char) : Prop :=
  ∀ c, text.head? = some c → excluded c = false

variable {excluded : Char → Bool}

theorem dropWhile_of_headNot {text rest : List Char}
    (all : ∀ c ∈ text, excluded c = true) (stops : HeadNot excluded rest) :
    (text ++ rest).dropWhile excluded = rest := by
  rw [List.dropWhile_append_of_pos all]
  cases rest with
  | nil => rfl
  | cons c rest => rw [List.dropWhile_cons, stops c rfl, if_neg Bool.false_ne_true]

theorem skipWs_blank {blank : List Char} (isBlank' : Blank blank) (stops : HeadNot isBlank rest) :
    skipWs (encode (blank ++ rest)) = .ok ((), encode rest) := by
  rw [skipWs_encode, dropWhile_of_headNot isBlank' stops]

theorem skipDigits_digits {digits : List Char} (all : ∀ c ∈ digits, c.isDigit = true)
    (stops : HeadNot Char.isDigit rest) :
    skipDigits (encode (digits ++ rest)) = .ok ((), encode rest) := by
  rw [skipDigits_encode, dropWhile_of_headNot all stops]

theorem parseLiteral_complete {literal : List Char} (low : ∀ c ∈ literal, c.toNat < 128)
    (value : JsonValue) :
    parseLiteral total (literal.map ascii) value (encode (literal ++ rest)) =
      .ok (value, encode rest) := by
  induction literal with
  | nil => rfl
  | cons c literal ih =>
    rw [List.forall_mem_cons] at low
    rw [List.map_cons, parseLiteral, Parser.bind_eq_ok]
    exact ⟨(), _, consume_encode low.1 _ _, ih low.2⟩

/-! ### Strings -/

theorem utf8ByteSize_eq (s : String) : s.utf8ByteSize = (encode s.toList).length := by
  rw [← utf8ByteSize_ofList, String.ofList_toList]

theorem hexDigitValue_low {c : Char} {digit : Nat} (h : hexDigitValue c = some digit) :
    c.toNat < 128 := by
  have le : ∀ d e : Char, d ≤ e ↔ d.toNat ≤ e.toNat := fun d e => UInt32.le_iff_toNat_le
  rw [hexDigitValue] at h
  simp only [le] at h
  split at h
  next range => exact Nat.lt_of_le_of_lt range.2 (by decide)
  next =>
    split at h
    next range => exact Nat.lt_of_le_of_lt range.2 (by decide)
    next =>
      split at h
      next range => exact Nat.lt_of_le_of_lt range.2 (by decide)
      next => cases h

theorem parseHexDigits_complete {count : Nat} {value : UInt16} {text : List Char} {result : Nat}
    (length : text.length = count) (hex : HexText value.toNat text result)
    (small : (value.toNat + 1) * 16 ^ count ≤ 65536) :
    ∃ unit, parseHexDigits total count value (encode (text ++ rest)) = .ok (unit, encode rest) ∧
      unit.toNat = result := by
  induction count generalizing value text with
  | zero =>
    obtain rfl := List.length_eq_zero_iff.mp length
    cases hex
    exact ⟨value, rfl, rfl⟩
  | succ count ih =>
    cases hex with
    | nil => cases length
    | @cons _ digit _ c text isDigit hex =>
      have low := hexDigitValue_low isDigit
      have char := hexNibble_ascii low
      rw [isDigit, Option.map_eq_some_iff] at char
      obtain ⟨nibble, found, rfl⟩ := char
      obtain ⟨next, smaller⟩ := hexRoom small (hexDigitValue_lt isDigit)
      rw [← next] at hex
      obtain ⟨unit, ok, same⟩ := ih (Nat.succ.inj length) hex smaller
      refine ⟨unit, ?_, same⟩
      rw [parseHexDigits, Parser.bind_eq_ok]
      refine ⟨_, _, takeByte_encode low _, ?_⟩
      dsimp only
      rw [found]
      exact ok

theorem parseHexU16_complete {text : List Char} {code : Nat} (isUnit : CodeUnit text code) :
    ∃ unit, parseHexU16 total (encode (text ++ rest)) = .ok (unit, encode rest) ∧
      unit.toNat = code :=
  parseHexDigits_complete isUnit.1 isUnit.2 (by decide)

theorem charFromU32_toNat {scalar : UInt32} {c : Char} (same : scalar.toNat = c.toNat) :
    charFromU32 scalar = some c := by
  obtain rfl : scalar = c.val := UInt32.toNat_inj.mp same
  rw [charFromU32, dif_pos c.valid]

/-- No character is a surrogate. -/
theorem not_surrogate (c : Char) : ¬(0xd800 ≤ c.toNat ∧ c.toNat ≤ 0xdfff) := by
  have valid : c.toNat.isValidChar := c.valid
  unfold Nat.isValidChar at valid
  omega

theorem parseUnicodeEscape_of_scalar {scalar : UInt32} {c : Char} {bytes : List UInt8}
    (read : parseUnicodeScalar total bytes = .ok (scalar, encode rest))
    (same : scalar.toNat = c.toNat) : parseUnicodeEscape total bytes = .ok (c, encode rest) := by
  rw [parseUnicodeEscape, Parser.bind_eq_ok]
  refine ⟨scalar, _, read, ?_⟩
  rw [charFromU32_toNat same]
  rfl

theorem parseUnicodeEscape_unit {c : Char} {text : List Char} (isUnit : CodeUnit text c.toNat) :
    parseUnicodeEscape total (encode (text ++ rest)) = .ok (c, encode rest) := by
  obtain ⟨unit, read, same⟩ : ∃ unit,
      parseHexU16 total (encode (text ++ rest)) = .ok (unit, encode rest) ∧ unit.toNat = c.toNat :=
    parseHexU16_complete isUnit
  have plain : ¬(decide (0xd800 ≤ unit) && decide (unit ≤ 0xdbff)) = true := by
    rw [Bool.and_eq_true, decide_eq_true_eq, decide_eq_true_eq, UInt16.le_iff_toNat_le,
      UInt16.le_iff_toNat_le, same]
    rintro ⟨least, most⟩
    exact not_surrogate c ⟨least, Nat.le_trans most (by decide)⟩
  have scalar : parseUnicodeScalar total (encode (text ++ rest)) =
      .ok (unit.toUInt32, encode rest) := by
    rw [parseUnicodeScalar, Parser.bind_eq_ok]
    refine ⟨unit, _, read, ?_⟩
    rw [if_neg plain]
    rfl
  exact parseUnicodeEscape_of_scalar scalar same

theorem parseUnicodeEscape_pair {c : Char} {text text' : List Char} {high low : Nat}
    (isHigh : CodeUnit text high) (highFrom : 0xd800 ≤ high) (highTo : high ≤ 0xdbff)
    (isLow : CodeUnit text' low) (lowFrom : 0xdc00 ≤ low) (lowTo : low ≤ 0xdfff)
    (same : c.toNat = 0x10000 + (high - 0xd800) * 0x400 + (low - 0xdc00)) :
    parseUnicodeEscape total (encode (text ++ '\\' :: 'u' :: (text' ++ rest))) =
      .ok (c, encode rest) := by
  obtain ⟨unit, read, rfl⟩ : ∃ unit, parseHexU16 total
      (encode (text ++ '\\' :: 'u' :: (text' ++ rest))) =
        .ok (unit, encode ('\\' :: 'u' :: (text' ++ rest))) ∧ unit.toNat = high :=
    parseHexU16_complete isHigh
  obtain ⟨unit', read', rfl⟩ : ∃ unit,
      parseHexU16 total (encode (text' ++ rest)) = .ok (unit, encode rest) ∧ unit.toNat = low :=
    parseHexU16_complete isLow
  refine parseUnicodeEscape_of_scalar ?_ ((pair_toNat highFrom highTo lowFrom lowTo).trans same.symm)
  rw [parseUnicodeScalar, Parser.bind_eq_ok]
  refine ⟨unit, _, read, ?_⟩
  have isHigh : (decide (0xd800 ≤ unit) && decide (unit ≤ 0xdbff)) = true := by
    rw [Bool.and_eq_true, decide_eq_true_eq, decide_eq_true_eq]
    exact ⟨UInt16.le_iff_toNat_le.mpr highFrom, UInt16.le_iff_toNat_le.mpr highTo⟩
  have isLow : (decide (0xdc00 ≤ unit') && decide (unit' ≤ 0xdfff)) = true := by
    rw [Bool.and_eq_true, decide_eq_true_eq, decide_eq_true_eq]
    exact ⟨UInt16.le_iff_toNat_le.mpr lowFrom, UInt16.le_iff_toNat_le.mpr lowTo⟩
  rw [if_pos isHigh, Parser.bind_eq_ok]
  refine ⟨(), _, consume_encode (by decide) _ _, ?_⟩
  rw [Parser.bind_eq_ok]
  refine ⟨(), _, consume_encode (by decide) _ _, ?_⟩
  rw [Parser.bind_eq_ok]
  refine ⟨unit', _, read', ?_⟩
  rw [if_pos isLow]
  rfl

theorem pushStringChar_complete {out : String} {c : Char} {bytes : List UInt8}
    (fits : (out.push c).utf8ByteSize ≤ limits.stringBytes) :
    pushStringChar total limits out c bytes = .ok (out.push c, bytes) := by
  rw [String.utf8ByteSize_push] at fits
  rw [pushStringChar, if_neg (Nat.not_lt_of_le fits)]
  rfl

theorem letterEscapes_low {letter c : Char} (listed : (letter, c) ∈ letterEscapes) :
    letter.toNat < 128 := by
  simp only [letterEscapes, List.mem_cons, Prod.mk.injEq, List.not_mem_nil, or_false] at listed
  rcases listed with ⟨rfl, -⟩ | ⟨rfl, -⟩ | ⟨rfl, -⟩ | ⟨rfl, -⟩ | ⟨rfl, -⟩ | ⟨rfl, -⟩ | ⟨rfl, -⟩ | ⟨rfl, -⟩
  all_goals decide

/-- After the backslash, the rest of an escape is read. -/
theorem parseStringEscape_complete {out : String} {c : Char} {text : List Char}
    (written : CharText c ('\\' :: text)) (fits : (out.push c).utf8ByteSize ≤ limits.stringBytes) :
    parseStringEscape total limits out (encode (text ++ rest)) = .ok (out.push c, encode rest) := by
  have unicode : ∀ text, parseUnicodeEscape total (encode (text ++ rest)) = .ok (c, encode rest) →
      parseStringEscape total limits out (encode ('u' :: text ++ rest)) =
        .ok (out.push c, encode rest) := by
    intro text read
    rw [List.cons_append, parseStringEscape, Parser.bind_eq_ok]
    refine ⟨_, _, takeByte_encode (by decide) _, ?_⟩
    have none : escapedChar (ascii 'u') = none := by decide
    dsimp only
    rw [none]
    dsimp only
    rw [if_pos rfl, Parser.bind_eq_ok]
    exact ⟨c, _, read, pushStringChar_complete fits⟩
  generalize whole : '\\' :: text = all at written
  cases written with
  | unescaped _ _ notBackslash =>
    cases whole
    exact absurd rfl notBackslash
  | letter listed =>
    cases whole
    have low := letterEscapes_low listed
    rw [List.cons_append, parseStringEscape, Parser.bind_eq_ok]
    refine ⟨_, _, takeByte_encode low _, ?_⟩
    dsimp only
    rw [(escapedChar_ascii low).mpr listed]
    exact pushStringChar_complete fits
  | unit isUnit =>
    cases whole
    exact unicode _ (parseUnicodeEscape_unit isUnit)
  | pair isHigh highFrom highTo isLow lowFrom lowTo same =>
    cases whole
    refine unicode _ ?_
    rw [List.append_assoc]
    exact parseUnicodeEscape_pair isHigh highFrom highTo isLow lowFrom lowTo same

/-- One character, however it is written, is one turn of the loop. -/
theorem parseStringTurn_char {out : String} {c : Char} {text : List Char} (written : CharText c text)
    (fits : (out.push c).utf8ByteSize ≤ limits.stringBytes) :
    parseStringTurn total limits out (encode (text ++ rest)) =
      .ok (.inl (out.push c), encode rest) := by
  by_cases escaped : ∃ others, text = '\\' :: others
  · obtain ⟨others, rfl⟩ := escaped
    rw [List.cons_append, parseStringTurn, Parser.bind_eq_ok]
    refine ⟨_, _, peek_encode (by decide) _, ?_⟩
    have notQuote : ascii '\\' ≠ ascii '"' := by decide
    dsimp only
    rw [if_neg notQuote, if_pos rfl, Parser.bind_eq_ok]
    refine ⟨(), _, advance_encode (by decide) _, ?_⟩
    rw [Parser.bind_eq_ok]
    exact ⟨_, _, parseStringEscape_complete written fits, rfl⟩
  · cases written with
    | letter | unit | pair => exact absurd ⟨_, rfl⟩ escaped
    | unescaped visible notQuote notBackslash =>
      rw [List.singleton_append, parseStringTurn, Parser.bind_eq_ok]
      obtain ⟨byte, first, notQuote', notBackslash', visible'⟩ : ∃ byte,
          (encode (c :: rest)).head? = some byte ∧ byte ≠ ascii '"' ∧ byte ≠ ascii '\\' ∧
            ¬byte ≤ 0x1f := by
        by_cases low : c.toNat < 128
        · refine ⟨ascii c, head?_encode_cons low rest, ?_, ?_, ?_⟩
          · exact fun same => notQuote (ascii_inj low (by decide) same)
          · exact fun same => notBackslash (ascii_inj low (by decide) same)
          · rw [UInt8.le_iff_toNat_le, ascii_toNat low]
            exact Nat.not_le_of_lt visible
        · obtain ⟨byte, others, bytes, lead⟩ := encode_wide (Nat.le_of_not_lt low) rest
          refine ⟨byte, by rw [bytes]; rfl, wide_ne_ascii (by decide) lead,
            wide_ne_ascii (by decide) lead, fun le => ?_⟩
          exact absurd (UInt8.le_trans lead le) (by decide)
      refine ⟨some byte, encode (c :: rest), by rw [peek, first], ?_⟩
      dsimp only
      rw [if_neg notQuote', if_neg notBackslash', if_neg visible', Parser.bind_eq_ok]
      refine ⟨c, _, firstChar_encode c rest, ?_⟩
      rw [Parser.bind_eq_ok]
      refine ⟨(), encode rest, ?_, ?_⟩
      · rw [advance, encode_cons, ← String.length_utf8EncodeChar, List.drop_left]
      · rw [Parser.bind_eq_ok]
        exact ⟨_, _, pushStringChar_complete fits, rfl⟩

theorem parseStringLoop_complete {chars text : List Char} (written : CharsText chars text)
    {out value : String} (whole : value.toList = out.toList ++ chars)
    (fits : value.utf8ByteSize ≤ limits.stringBytes) :
    loop .exhausted (parseStringTurn total limits) out (encode (text ++ '"' :: rest)) =
      .ok (value, encode rest) := by
  induction written generalizing out with
  | nil =>
    rw [List.append_nil] at whole
    obtain rfl := String.toList_inj.mp whole
    refine loop_last ?_
    rw [List.nil_append, parseStringTurn, Parser.bind_eq_ok]
    refine ⟨_, _, peek_encode (by decide) _, ?_⟩
    dsimp only
    rw [if_pos rfl, Parser.bind_eq_ok]
    exact ⟨(), _, advance_encode (by decide) _, rfl⟩
  | @cons c text chars others written _ ih =>
    have whole' : value.toList = (out.push c).toList ++ chars := by
      rw [whole, String.toList_push, List.append_assoc, List.singleton_append]
    have small : (out.push c).utf8ByteSize ≤ limits.stringBytes := by
      refine Nat.le_trans ?_ fits
      rw [utf8ByteSize_eq, utf8ByteSize_eq, whole', length_encode_append]
      omega
    rw [List.append_assoc]
    refine loop_next (parseStringTurn_char written small) ?_ (ih whole')
    rw [length_encode_append text]
    have some := encode_pos written.ne_nil
    omega

theorem parseString_complete {value : String} {text : List Char} (written : StringText value text)
    (fits : value.utf8ByteSize ≤ limits.stringBytes) :
    parseString total limits (encode (text ++ rest)) = .ok (value, encode rest) := by
  obtain ⟨chars, written, rfl⟩ := written
  rw [List.cons_append, List.append_assoc, List.singleton_append, parseString, Parser.bind_eq_ok]
  exact ⟨(), _, consume_encode (by decide) _ _, parseStringLoop_complete written rfl fits⟩

/-! ### Numbers -/

def continuesNumber (c : Char) : Bool := c.isDigit || c = '.' || c = 'e' || c = 'E'

/-- What follows does not go on with a number. -/
def Stops (rest : List Char) : Prop := HeadNot continuesNumber rest

theorem HeadNot.mono {excluded fewer : Char → Bool} {text : List Char}
    (h : HeadNot excluded text) (imp : ∀ c, fewer c = true → excluded c = true) :
    HeadNot fewer text := by
  intro c first
  cases found : fewer c with
  | false => rfl
  | true =>
    have isExcluded := imp c found
    rw [h c first] at isExcluded
    cases isExcluded

theorem HeadNot.ne {text : List Char} (h : HeadNot excluded text) {c : Char}
    (low : c.toNat < 128) (isExcluded : excluded c = true) :
    (encode text).head? ≠ some (ascii c) := by
  intro first
  rw [head?_encode_ascii low] at first
  rw [h c first] at isExcluded
  cases isExcluded

theorem HeadNot.append {text rest : List Char}
    (first : text = [] ∨ ∃ c others, text = c :: others ∧ excluded c = false)
    (h : HeadNot excluded rest) : HeadNot excluded (text ++ rest) := by
  rcases first with rfl | ⟨c, others, rfl, isFine⟩
  · exact h
  · intro d found
    cases found
    exact isFine

theorem parseDigits_complete {digits : List Char} (isDigits : Digits digits)
    (stops : HeadNot Char.isDigit rest) :
    parseDigits total (encode (digits ++ rest)) = .ok ((), encode rest) := by
  rw [parseDigits, Parser.bind_eq_ok]
  refine ⟨_, _, Parser.remaining_eq_ok.mpr ⟨rfl, rfl⟩, ?_⟩
  rw [Parser.bind_eq_ok]
  refine ⟨(), _, skipDigits_digits isDigits.2 stops, ?_⟩
  rw [Parser.bind_eq_ok]
  refine ⟨_, _, Parser.remaining_eq_ok.mpr ⟨rfl, rfl⟩, ?_⟩
  have moved : (encode rest).length ≠ (encode (digits ++ rest)).length := by
    have some := encode_pos isDigits.1
    rw [length_encode_append]
    omega
  rw [if_neg moved]
  rfl

theorem parseMinus_complete {minus : List Char} (isMinus : minus = [] ∨ minus = ['-'])
    (stops : HeadNot (· = '-') rest) :
    parseMinus (encode (minus ++ rest)) = .ok ((), encode rest) := by
  rw [parseMinus, Parser.bind_eq_ok]
  rcases isMinus with rfl | rfl
  · refine ⟨_, _, rfl, ?_⟩
    rw [List.nil_append, if_neg (stops.ne (by decide) (by decide))]
    rfl
  · refine ⟨_, _, peek_encode (by decide) _, ?_⟩
    rw [if_pos rfl]
    exact advance_encode (by decide) _

theorem parseIntegerPart_complete {integer : List Char} (isInteger : IntegerText integer)
    (stops : HeadNot Char.isDigit rest) :
    parseIntegerPart total (encode (integer ++ rest)) = .ok ((), encode rest) := by
  rw [parseIntegerPart, Parser.bind_eq_ok]
  rcases isInteger with rfl | ⟨c, others, rfl, digit, notZero, digits⟩
  · refine ⟨_, _, peek_encode (by decide) _, ?_⟩
    dsimp only
    rw [if_pos rfl]
    exact advance_encode (by decide) _
  · obtain ⟨least, most⟩ : 48 ≤ c.toNat ∧ c.toNat ≤ 57 := by
      simpa [Char.isDigit, UInt32.le_iff_toNat_le] using digit
    have low : c.toNat < 128 := by omega
    have least' : 49 ≤ c.toNat := by
      have other : c.toNat ≠ 48 := fun same => notZero (Char.toNat_inj.mp same)
      omega
    refine ⟨_, _, peek_encode low _, ?_⟩
    have range : (decide (ascii '1' ≤ ascii c) && decide (ascii c ≤ ascii '9')) = true := by
      rw [Bool.and_eq_true, decide_eq_true_eq, decide_eq_true_eq, ascii_le_iff (by decide) low,
        ascii_le_iff low (by decide)]
      exact ⟨least', most⟩
    have notZero' : ascii c ≠ ascii '0' := fun same => notZero (ascii_inj low (by decide) same)
    dsimp only
    rw [if_neg notZero', if_pos range, Parser.bind_eq_ok]
    exact ⟨(), _, advance_encode low _, skipDigits_digits digits stops⟩

theorem parseFraction_complete {fraction : List Char} (isFraction : FractionText fraction)
    (stops : HeadNot (fun c => c.isDigit || c = '.') rest) :
    parseFraction total (encode (fraction ++ rest)) = .ok ((), encode rest) := by
  rw [parseFraction, Parser.bind_eq_ok]
  rcases isFraction with rfl | ⟨digits, rfl, isDigits⟩
  · refine ⟨_, _, rfl, ?_⟩
    rw [List.nil_append, if_neg (stops.ne (by decide) (by decide))]
    rfl
  · refine ⟨_, _, peek_encode (by decide) _, ?_⟩
    rw [if_pos rfl, Parser.bind_eq_ok]
    refine ⟨(), _, advance_encode (by decide) _, parseDigits_complete isDigits (stops.mono ?_)⟩
    exact fun c digit => by rw [digit, Bool.true_or]

theorem parseSign_complete {sign : List Char} (isSign : sign = [] ∨ sign = ['+'] ∨ sign = ['-'])
    (stops : HeadNot (fun c => c = '+' || c = '-') rest) :
    parseSign (encode (sign ++ rest)) = .ok ((), encode rest) := by
  rw [parseSign, Parser.bind_eq_ok]
  rcases isSign with rfl | rfl | rfl
  · refine ⟨_, _, rfl, ?_⟩
    have none : ¬(decide ((encode rest).head? = some (ascii '+')) ||
        decide ((encode rest).head? = some (ascii '-'))) = true := by
      rw [Bool.or_eq_true, decide_eq_true_eq, decide_eq_true_eq]
      rintro (plus | minus)
      · exact stops.ne (by decide) (by decide) plus
      · exact stops.ne (by decide) (by decide) minus
    rw [List.nil_append, if_neg none]
    rfl
  · refine ⟨_, _, peek_encode (by decide) _, ?_⟩
    rw [if_pos (by decide)]
    exact advance_encode (by decide) _
  · refine ⟨_, _, peek_encode (by decide) _, ?_⟩
    rw [if_pos (by decide)]
    exact advance_encode (by decide) _

/-- Digits at the front are no sign. -/
theorem HeadNot.of_digits {digits : List Char} (isDigits : Digits digits)
    (fine : ∀ c : Char, c.isDigit = true → excluded c = false) (rest : List Char) :
    HeadNot excluded (digits ++ rest) := by
  cases digits with
  | nil => exact absurd rfl isDigits.1
  | cons c digits =>
    intro d first
    cases first
    exact fine c (isDigits.2 c List.mem_cons_self)

theorem digit_ne {c d : Char} (digit : c.isDigit = true) (other : d.isDigit = false) : c ≠ d := by
  rintro rfl
  rw [digit] at other
  cases other

theorem parseExponent_complete {exponent : List Char} (isExponent : ExponentText exponent)
    (stops : Stops rest) :
    parseExponent total (encode (exponent ++ rest)) = .ok ((), encode rest) := by
  rw [parseExponent, Parser.bind_eq_ok]
  rcases isExponent with rfl | ⟨mark, sign, digits, rfl, isMark, isSign, isDigits⟩
  · refine ⟨_, _, rfl, ?_⟩
    have none : ¬(decide ((encode rest).head? = some (ascii 'e')) ||
        decide ((encode rest).head? = some (ascii 'E'))) = true := by
      rw [Bool.or_eq_true, decide_eq_true_eq, decide_eq_true_eq]
      rintro (small | large)
      · exact stops.ne (by decide) (by decide) small
      · exact stops.ne (by decide) (by decide) large
    rw [List.nil_append, if_neg none]
    rfl
  · have low : mark.toNat < 128 := by
      rcases isMark with rfl | rfl
      · decide
      · decide
    have marked : (decide (some (ascii mark) = some (ascii 'e')) ||
        decide (some (ascii mark) = some (ascii 'E'))) = true := by
      rcases isMark with rfl | rfl
      · decide
      · decide
    refine ⟨_, _, peek_encode low _, ?_⟩
    rw [if_pos marked, Parser.bind_eq_ok]
    refine ⟨(), _, advance_encode low _, ?_⟩
    rw [List.append_eq, List.append_assoc, Parser.bind_eq_ok]
    refine ⟨(), _, parseSign_complete isSign (HeadNot.of_digits isDigits ?_ rest), ?_⟩
    · intro c digit
      simp [digit_ne (d := '+') digit (by decide), digit_ne (d := '-') digit (by decide)]
    · exact parseDigits_complete isDigits (stops.mono fun c digit => by simp [continuesNumber, digit])

theorem parseNumber_complete {text : List Char} (isNumber : NumberText text) (stops : Stops rest)
    (fits : (String.ofList text).utf8ByteSize ≤ limits.numberBytes) :
    parseNumber total limits (encode (text ++ rest)) = .ok (String.ofList text, encode rest) := by
  obtain ⟨minus, integer, fraction, exponent, rfl, isMinus, isInteger, isFraction, isExponent⟩ :=
    isNumber
  have afterFraction : HeadNot (fun c => c.isDigit || c = '.') (exponent ++ rest) := by
    refine HeadNot.append ?_ (stops.mono fun c => ?_)
    · rcases isExponent with rfl | ⟨mark, sign, digits, rfl, isMark, -⟩
      · exact .inl rfl
      · refine .inr ⟨mark, _, rfl, ?_⟩
        rcases isMark with rfl | rfl
        · decide
        · decide
    · simp only [continuesNumber, Bool.or_eq_true]
      exact fun h => .inl (.inl h)
  have afterInteger : HeadNot Char.isDigit (fraction ++ (exponent ++ rest)) := by
    refine HeadNot.append ?_ (afterFraction.mono fun c digit => by rw [digit, Bool.true_or])
    rcases isFraction with rfl | ⟨digits, rfl, -⟩
    · exact .inl rfl
    · exact .inr ⟨'.', _, rfl, by decide⟩
  have afterMinus : HeadNot (· = '-') (integer ++ (fraction ++ (exponent ++ rest))) := by
    rcases isInteger with rfl | ⟨c, others, rfl, digit, -⟩
    · intro c first
      cases first
      decide
    · intro d first
      cases first
      exact decide_eq_false (digit_ne digit (by decide))
  have size : ¬(encode (minus ++ (integer ++ (fraction ++ exponent)) ++ rest)).length -
      (encode rest).length > limits.numberBytes := by
    rw [utf8ByteSize_ofList] at fits
    rw [length_encode_append, Nat.add_sub_cancel]
    exact Nat.not_lt_of_le fits
  rw [parseNumber, Parser.bind_eq_ok]
  refine ⟨_, _, Parser.remaining_eq_ok.mpr ⟨rfl, rfl⟩, ?_⟩
  rw [Parser.bind_eq_ok]
  refine ⟨(), encode (integer ++ (fraction ++ (exponent ++ rest))), ?_, ?_⟩
  · rw [List.append_assoc, List.append_assoc, List.append_assoc]
    exact parseMinus_complete isMinus afterMinus
  rw [Parser.bind_eq_ok]
  refine ⟨(), _, parseIntegerPart_complete isInteger afterInteger, ?_⟩
  rw [Parser.bind_eq_ok]
  refine ⟨(), _, parseFraction_complete isFraction afterFraction, ?_⟩
  rw [Parser.bind_eq_ok]
  refine ⟨(), _, parseExponent_complete isExponent stops, ?_⟩
  rw [Parser.bind_eq_ok]
  refine ⟨_, _, Parser.remaining_eq_ok.mpr ⟨rfl, rfl⟩, ?_⟩
  rw [if_neg size]
  exact sliceFrom_encode _ _

/-! ### Values -/

/-- An inner parser reads the values whose texts have at most so many bytes. -/
def ReadsValues (limits : JsonResourceLimits) (inner : ValuePlace → JsonParser JsonValue)
    (most : Nat) : Prop :=
  ∀ place value before body rest, ValueText value body → WithinLimits limits place value →
    Blank before → Stops rest → (encode body).length ≤ most →
      inner place (encode (before ++ (body ++ rest))) = .ok (value, encode rest)

theorem HeadNot.cons {c : Char} (fine : excluded c = false)
    (rest : List Char) : HeadNot excluded (c :: rest) := by
  intro d first
  cases first
  exact fine

theorem isBlank_continues {c : Char} (blank : isBlank c = true) : continuesNumber c = false := by
  simp only [isBlank, Bool.or_eq_true, decide_eq_true_eq] at blank
  rcases blank with ((rfl | rfl) | rfl) | rfl
  all_goals decide

/-- Blanks and then what ends a value. -/
theorem Stops.blank {blank : List Char} (isBlank' : Blank blank) (stops : Stops rest) :
    Stops (blank ++ rest) := by
  refine HeadNot.append ?_ stops
  cases blank with
  | nil => exact .inl rfl
  | cons c blank => exact .inr ⟨c, blank, rfl, isBlank_continues (isBlank' c List.mem_cons_self)⟩

theorem StringText.head {value : String} {text : List Char} (h : StringText value text) :
    ∃ others, text = '"' :: others := by
  obtain ⟨chars, -, rfl⟩ := h
  exact ⟨_, rfl⟩

/-- How a number begins. -/
def beginsNumber (c : Char) : Bool := c = '-' || c.isDigit

theorem NumberText.head {text : List Char} (h : NumberText text) :
    ∃ c others, text = c :: others ∧ beginsNumber c = true := by
  obtain ⟨minus, integer, fraction, exponent, rfl, isMinus, isInteger, -⟩ := h
  rcases isMinus with rfl | rfl
  · rcases isInteger with rfl | ⟨c, others, rfl, digit, -⟩
    · exact ⟨'0', _, rfl, by decide⟩
    · exact ⟨c, _, rfl, by rw [beginsNumber, digit, Bool.or_true]⟩
  · exact ⟨'-', _, rfl, by decide⟩

theorem beginsNumber_ne {c d : Char} (begins : beginsNumber c = true)
    (other : beginsNumber d = false) : c ≠ d := by
  rintro rfl
  rw [begins] at other
  cases other

theorem beginsNumber_low {c : Char} (begins : beginsNumber c = true) : c.toNat < 128 := by
  rw [beginsNumber, Bool.or_eq_true, decide_eq_true_eq] at begins
  rcases begins with rfl | digit
  · decide
  · obtain ⟨-, most⟩ : 48 ≤ c.toNat ∧ c.toNat ≤ 57 := by
      simpa [Char.isDigit, UInt32.le_iff_toNat_le] using digit
    omega

/-- Neither a blank nor what closes an array or an object. -/
def beginsValue (c : Char) : Bool :=
  !isBlank c && !decide (c = ']') && !decide (c = '}')

theorem beginsValue_of_number {c : Char} (begins : beginsNumber c = true) :
    beginsValue c = true := by
  have other : ∀ d : Char, beginsNumber d = false → decide (c = d) = false :=
    fun d h => decide_eq_false (beginsNumber_ne begins h)
  rw [beginsValue, isBlank, other ' ' (by decide), other '\n' (by decide), other '\r' (by decide),
    other '\t' (by decide), other ']' (by decide), other '}' (by decide)]
  rfl

theorem ValueText.head {value : JsonValue} {text : List Char} (h : ValueText value text) :
    ∃ c others, text = c :: others ∧ beginsValue c = Bool.true := by
  cases h with
  | null | true | false => exact ⟨_, _, rfl, by decide⟩
  | number number =>
    obtain ⟨c, others, rfl, begins⟩ := number.head
    exact ⟨c, others, rfl, beginsValue_of_number begins⟩
  | string string =>
    obtain ⟨others, rfl⟩ := string.head
    exact ⟨_, _, rfl, by decide⟩
  | emptyArray | array | emptyObject | object => exact ⟨_, _, rfl, by decide⟩

/-- Nothing of this stands at the front of a value. -/
theorem ValueText.headNot {value : JsonValue} {text : List Char} (h : ValueText value text)
    (fine : ∀ c, beginsValue c = Bool.true → excluded c = Bool.false)
    (rest : List Char) : HeadNot excluded (text ++ rest) := by
  obtain ⟨c, others, rfl, begins⟩ := h.head
  exact HeadNot.cons (fine c begins) _

theorem beginsValue_blank {c : Char} (begins : beginsValue c = true) : isBlank c = false := by
  cases blank : isBlank c with
  | false => rfl
  | true =>
    rw [beginsValue, blank] at begins
    cases begins

theorem beginsValue_bracket {c : Char} (begins : beginsValue c = true) :
    decide (c = ']') = false := by
  refine decide_eq_false ?_
  rintro rfl
  revert begins
  decide

section Inner

variable {inner : ValuePlace → JsonParser JsonValue} {most depth : Nat}

theorem parseArrayTurn_complete (reads : ReadsValues limits inner most) {maxElements : Nat}
    {values : List JsonValue} {value : JsonValue} {before body after : List Char} {c : Char}
    {outcome : List JsonValue ⊕ JsonValue} (room : values.length < maxElements)
    (blank : Blank before) (written : ValueText value body) (blank' : Blank after)
    (within : WithinLimits limits (depth + 1, none) value) (short : (encode body).length ≤ most)
    (finish : (c = ',' ∧ outcome = .inl (values ++ [value])) ∨
      (c = ']' ∧ outcome = .inr (.array (values ++ [value])))) :
    parseArrayTurn total inner depth maxElements values
        (encode (before ++ (body ++ (after ++ c :: rest)))) = .ok (outcome, encode rest) := by
  have low : c.toNat < 128 := by
    rcases finish with ⟨rfl, -⟩ | ⟨rfl, -⟩ <;> decide
  have stops : Stops (c :: rest) := by
    rcases finish with ⟨rfl, -⟩ | ⟨rfl, -⟩
    · exact HeadNot.cons (by decide) _
    · exact HeadNot.cons (by decide) _
  have visible : HeadNot isBlank (c :: rest) := by
    rcases finish with ⟨rfl, -⟩ | ⟨rfl, -⟩
    · exact HeadNot.cons (by decide) _
    · exact HeadNot.cons (by decide) _
  rw [parseArrayTurn, if_neg (Nat.ne_of_lt room), Parser.bind_eq_ok]
  refine ⟨value, _, reads _ _ _ _ _ written within blank (stops.blank blank') short, ?_⟩
  rw [Parser.bind_eq_ok]
  refine ⟨(), _, skipWs_blank blank' visible, ?_⟩
  rw [Parser.bind_eq_ok]
  refine ⟨_, _, takeByte_encode low _, ?_⟩
  rcases finish with ⟨rfl, rfl⟩ | ⟨rfl, rfl⟩
  · rfl
  · rfl

theorem parseArrayLoop_complete (reads : ReadsValues limits inner most) {maxElements : Nat}
    {values others : List JsonValue} {text : List Char} (elements : ElementsText others text)
    (room : values.length + others.length ≤ maxElements)
    (within : ∀ value ∈ others, WithinLimits limits (depth + 1, none) value)
    (short : (encode text).length ≤ most) :
    loop .exhausted (parseArrayTurn total inner depth maxElements) values
        (encode (text ++ ']' :: rest)) = .ok (.array (values ++ others), encode rest) := by
  induction others generalizing values text with
  | nil => cases elements
  | cons value others ih =>
    rw [List.length_cons] at room
    cases elements with
    | last blank written blank' =>
      refine loop_last ?_
      simp only [length_encode_append] at short
      simp only [List.append_assoc]
      exact parseArrayTurn_complete reads (by omega) blank written blank'
        (within value List.mem_cons_self) (by omega) (.inr ⟨rfl, rfl⟩)
    | @next _ _ before body after later blank written blank' elements =>
      have size : (encode body).length + (encode (',' :: later)).length ≤ most := by
        simp only [length_encode_append] at short
        omega
      have comma : (encode (',' :: later)).length = 1 + (encode later).length :=
        length_encode_cons ',' later
      have first : parseArrayTurn total inner depth maxElements values
          (encode (before ++ (body ++ (after ++ ',' :: (later ++ ']' :: rest))))) =
            .ok (.inl (values ++ [value]), encode (later ++ ']' :: rest)) :=
        parseArrayTurn_complete reads (by omega) blank written blank'
          (within value List.mem_cons_self) (by omega) (.inl ⟨rfl, rfl⟩)
      have room' : (values ++ [value]).length + others.length ≤ maxElements := by
        rw [List.length_append, List.length_singleton]
        omega
      have later_complete := ih elements room'
        (fun value mem => within value (List.mem_cons_of_mem _ mem)) (by omega)
      rw [List.append_assoc, List.singleton_append] at later_complete
      simp only [List.append_assoc, List.cons_append]
      refine loop_next first ?_ later_complete
      have some := encode_pos written.ne_nil
      simp only [length_encode_append, length_encode_cons]
      omega

theorem ElementsText.dropBlank {values : List JsonValue} {text : List Char}
    (h : ElementsText values text) : ∃ before others, text = before ++ others ∧ Blank before ∧
      ElementsText values others ∧ ∃ c more, others = c :: more ∧ beginsValue c = true := by
  cases h with
  | last blank written blank' =>
    obtain ⟨c, others, rfl, begins⟩ := written.head
    exact ⟨_, _, rfl, blank, .last .nil written blank', c, _, rfl, begins⟩
  | next blank written blank' elements =>
    obtain ⟨c, others, rfl, begins⟩ := written.head
    exact ⟨_, _, rfl, blank, .next .nil written blank' elements, c, _, rfl, begins⟩

theorem parseArray_empty {maxElements : Nat} {blank : List Char} (isBlank' : Blank blank) :
    parseArray total inner depth maxElements (encode ('[' :: (blank ++ ']' :: rest))) =
      .ok (.array [], encode rest) := by
  rw [parseArray, Parser.bind_eq_ok]
  refine ⟨(), _, consume_encode (by decide) _ _, ?_⟩
  rw [Parser.bind_eq_ok]
  refine ⟨(), _, skipWs_blank isBlank' (HeadNot.cons (by decide) rest), ?_⟩
  rw [Parser.bind_eq_ok]
  refine ⟨_, _, peek_encode (by decide) _, ?_⟩
  rw [if_pos rfl, Parser.bind_eq_ok]
  exact ⟨(), _, advance_encode (by decide) _, rfl⟩

theorem parseArray_complete (reads : ReadsValues limits inner most) {maxElements : Nat}
    {values : List JsonValue} {text : List Char} (elements : ElementsText values text)
    (room : values.length ≤ maxElements)
    (within : ∀ value ∈ values, WithinLimits limits (depth + 1, none) value)
    (short : (encode text).length ≤ most) :
    parseArray total inner depth maxElements (encode ('[' :: (text ++ ']' :: rest))) =
      .ok (.array values, encode rest) := by
  obtain ⟨before, others, rfl, blank, elements, c, more, rfl, begins⟩ := elements.dropBlank
  have opens : HeadNot (· = ']') (c :: more ++ ']' :: rest) :=
    HeadNot.cons (beginsValue_bracket begins) _
  rw [length_encode_append] at short
  rw [parseArray, Parser.bind_eq_ok]
  refine ⟨(), _, consume_encode (by decide) _ _, ?_⟩
  rw [List.append_assoc, Parser.bind_eq_ok]
  refine ⟨(), _, skipWs_blank blank (HeadNot.cons (beginsValue_blank begins) _), ?_⟩
  rw [Parser.bind_eq_ok]
  refine ⟨_, _, rfl, ?_⟩
  rw [if_neg (opens.ne (by decide) (by decide))]
  exact parseArrayLoop_complete reads elements (by rw [List.length_nil]; omega) within (by omega)

theorem parseObjectTurn_complete (reads : ReadsValues limits inner most)
    {members : List JsonMember} {key : String} {value : JsonValue} {text : List Char} {c : Char}
    {outcome : List JsonMember ⊕ JsonValue} (room : members.length < limits.objectMembers)
    (written : MemberText (.mk key value) text) (fits : key.utf8ByteSize ≤ limits.stringBytes)
    (within : WithinLimits limits (depth + 1, arrayMemberBound limits key) value)
    (short : (encode text).length ≤ most)
    (finish : (c = ',' ∧ outcome = .inl (members ++ [.mk key value])) ∨
      (c = '}' ∧ outcome = .inr (.object (members ++ [.mk key value])))) :
    parseObjectTurn total limits inner depth members (encode (text ++ c :: rest)) =
      .ok (outcome, encode rest) := by
  have low : c.toNat < 128 := by
    rcases finish with ⟨rfl, -⟩ | ⟨rfl, -⟩ <;> decide
  have stops : Stops (c :: rest) := by
    rcases finish with ⟨rfl, -⟩ | ⟨rfl, -⟩
    · exact HeadNot.cons (by decide) _
    · exact HeadNot.cons (by decide) _
  have visible : HeadNot isBlank (c :: rest) := by
    rcases finish with ⟨rfl, -⟩ | ⟨rfl, -⟩
    · exact HeadNot.cons (by decide) _
    · exact HeadNot.cons (by decide) _
  cases written with
  | @mk _ _ before name gap gap' body after blank string isGap isGap' written isAfter =>
    have size : (encode body).length ≤ most := by
      simp only [length_encode_append, length_encode_cons] at short
      omega
    simp only [List.append_assoc, List.cons_append]
    obtain ⟨others, begins⟩ := string.head
    have quote : (encode (name ++ (gap ++ ':' :: (gap' ++ (body ++ (after ++ c :: rest)))))).head? =
        some (ascii '"') := by
      rw [begins]
      exact head?_encode_cons (by decide) _
    have opens : HeadNot isBlank (name ++ (gap ++ ':' :: (gap' ++ (body ++ (after ++ c :: rest))))) := by
      rw [begins]
      exact HeadNot.cons (by decide) _
    rw [parseObjectTurn, Parser.bind_eq_ok]
    refine ⟨(), _, skipWs_blank blank opens, ?_⟩
    rw [if_neg (Nat.ne_of_lt room), Parser.bind_eq_ok]
    refine ⟨_, _, rfl, ?_⟩
    rw [quote, if_neg (fun other => other rfl), Parser.bind_eq_ok]
    refine ⟨key, _, parseString_complete string fits, ?_⟩
    rw [Parser.bind_eq_ok]
    refine ⟨(), _, skipWs_blank isGap (HeadNot.cons (by decide) _), ?_⟩
    rw [Parser.bind_eq_ok]
    refine ⟨(), _, consume_encode (by decide) _ _, ?_⟩
    rw [Parser.bind_eq_ok]
    refine ⟨value, _, reads _ _ _ _ _ written within isGap' (stops.blank isAfter) size, ?_⟩
    rw [Parser.bind_eq_ok]
    refine ⟨(), _, skipWs_blank isAfter visible, ?_⟩
    rw [Parser.bind_eq_ok]
    refine ⟨_, _, takeByte_encode low _, ?_⟩
    rcases finish with ⟨rfl, rfl⟩ | ⟨rfl, rfl⟩
    · rfl
    · rfl

theorem parseObjectLoop_complete (reads : ReadsValues limits inner most)
    {members others : List JsonMember} {text : List Char} (written : MembersText others text)
    (room : members.length + others.length ≤ limits.objectMembers)
    (fits : ∀ key value, .mk key value ∈ others → key.utf8ByteSize ≤ limits.stringBytes)
    (within : ∀ key value, .mk key value ∈ others →
      WithinLimits limits (depth + 1, arrayMemberBound limits key) value)
    (short : (encode text).length ≤ most) :
    loop .exhausted (parseObjectTurn total limits inner depth) members
        (encode (text ++ '}' :: rest)) = .ok (.object (members ++ others), encode rest) := by
  induction others generalizing members text with
  | nil => cases written
  | cons member others ih =>
    obtain ⟨key, value⟩ := member
    rw [List.length_cons] at room
    cases written with
    | last member =>
      refine loop_last ?_
      exact parseObjectTurn_complete reads (by omega) member (fits _ _ List.mem_cons_self)
        (within _ _ List.mem_cons_self) short (.inr ⟨rfl, rfl⟩)
    | @next _ _ text later member written =>
      have size : (encode text).length + (1 + (encode later).length) ≤ most := by
        rw [length_encode_append, length_encode_cons] at short
        exact short
      have first : parseObjectTurn total limits inner depth members
          (encode (text ++ ',' :: (later ++ '}' :: rest))) =
            .ok (.inl (members ++ [.mk key value]), encode (later ++ '}' :: rest)) :=
        parseObjectTurn_complete reads (by omega) member (fits _ _ List.mem_cons_self)
          (within _ _ List.mem_cons_self) (by omega) (.inl ⟨rfl, rfl⟩)
      have room' : (members ++ [JsonMember.mk key value]).length + others.length ≤ limits.objectMembers := by
        rw [List.length_append, List.length_singleton]
        omega
      have later_complete := ih written room'
        (fun key value mem => fits key value (List.mem_cons_of_mem _ mem))
        (fun key value mem => within key value (List.mem_cons_of_mem _ mem)) (by omega)
      rw [List.append_assoc, List.singleton_append] at later_complete
      rw [List.append_assoc, List.cons_append]
      refine loop_next first ?_ later_complete
      have comma := Char.utf8Size_pos ','
      rw [length_encode_append text, length_encode_cons]
      omega

theorem MembersText.dropBlank {members : List JsonMember} {text : List Char}
    (h : MembersText members text) : ∃ before others, text = before ++ others ∧ Blank before ∧
      MembersText members others ∧ ∃ more, others = '"' :: more := by
  have member : ∀ {member text}, MemberText member text → ∃ before others, text = before ++ others ∧
      Blank before ∧ MemberText member others ∧ ∃ more, others = '"' :: more := by
    intro member text h
    cases h with
    | mk blank string isGap isGap' written isAfter =>
      obtain ⟨others, rfl⟩ := string.head
      exact ⟨_, _, rfl, blank, .mk .nil string isGap isGap' written isAfter, _, rfl⟩
  cases h with
  | last written =>
    obtain ⟨before, others, rfl, blank, written, more, rfl⟩ := member written
    exact ⟨before, _, rfl, blank, .last written, more, rfl⟩
  | next written members =>
    obtain ⟨before, others, rfl, blank, written, more, rfl⟩ := member written
    exact ⟨before, _, List.append_assoc .., blank, .next written members, _, rfl⟩

theorem parseObject_empty {blank : List Char} (isBlank' : Blank blank) :
    parseObject total limits inner depth (encode ('{' :: (blank ++ '}' :: rest))) =
      .ok (.object [], encode rest) := by
  rw [parseObject, Parser.bind_eq_ok]
  refine ⟨(), _, consume_encode (by decide) _ _, ?_⟩
  rw [Parser.bind_eq_ok]
  refine ⟨(), _, skipWs_blank isBlank' (HeadNot.cons (by decide) rest), ?_⟩
  rw [Parser.bind_eq_ok]
  refine ⟨_, _, peek_encode (by decide) _, ?_⟩
  rw [if_pos rfl, Parser.bind_eq_ok]
  exact ⟨(), _, advance_encode (by decide) _, rfl⟩

theorem parseObject_complete (reads : ReadsValues limits inner most) {members : List JsonMember}
    {text : List Char} (written : MembersText members text)
    (room : members.length ≤ limits.objectMembers)
    (fits : ∀ key value, .mk key value ∈ members → key.utf8ByteSize ≤ limits.stringBytes)
    (within : ∀ key value, .mk key value ∈ members →
      WithinLimits limits (depth + 1, arrayMemberBound limits key) value)
    (short : (encode text).length ≤ most) :
    parseObject total limits inner depth (encode ('{' :: (text ++ '}' :: rest))) =
      .ok (.object members, encode rest) := by
  obtain ⟨before, others, rfl, blank, written, more, rfl⟩ := written.dropBlank
  have opens : HeadNot (· = '}') ('"' :: more ++ '}' :: rest) := HeadNot.cons (by decide) _
  rw [length_encode_append] at short
  rw [parseObject, Parser.bind_eq_ok]
  refine ⟨(), _, consume_encode (by decide) _ _, ?_⟩
  rw [List.append_assoc, Parser.bind_eq_ok]
  refine ⟨(), _, skipWs_blank blank (HeadNot.cons (by decide) _), ?_⟩
  rw [Parser.bind_eq_ok]
  refine ⟨_, _, rfl, ?_⟩
  rw [if_neg (opens.ne (by decide) (by decide))]
  exact parseObjectLoop_complete reads written (by rw [List.length_nil]; omega) fits within (by omega)

theorem WithinLimits.shallow {place : ValuePlace} {value : JsonValue}
    (h : WithinLimits limits place value) : place.1 ≤ limits.nestingDepth := by
  cases h <;> assumption

theorem map_complete {α β : Type} {f : α → β} {p : JsonParser α} {a : α} {bytes left : List UInt8}
    (ok : p bytes = .ok (a, left)) : (f <$> p) bytes = .ok (f a, left) :=
  Parser.bind_eq_ok.mpr ⟨a, left, ok, rfl⟩

theorem parseValueBody_complete (reads : ReadsValues limits inner most) :
    ReadsValues limits (parseValueBody total limits inner) (most + 1) := by
  rintro ⟨depth, bound⟩ value before body rest written within blank stops short
  have shallow : ¬depth > limits.nestingDepth := Nat.not_lt_of_le within.shallow
  have opens : HeadNot isBlank (body ++ rest) := written.headNot (fun _ => beginsValue_blank) rest
  rw [parseValueBody, if_neg shallow, Parser.bind_eq_ok]
  refine ⟨(), _, skipWs_blank blank opens, ?_⟩
  rw [Parser.bind_eq_ok]
  -- the first byte selects the branch, in the order in which the source compares it
  cases written with
  | null =>
    have first : (encode ("null".toList ++ rest)).head? = some (ascii 'n') :=
      head?_encode_cons (by decide) _
    refine ⟨_, _, by rw [peek, first], ?_⟩
    dsimp only
    rw [if_pos rfl]
    exact parseLiteral_complete (by simp) _
  | true =>
    have first : (encode ("true".toList ++ rest)).head? = some (ascii 't') :=
      head?_encode_cons (by decide) _
    refine ⟨_, _, by rw [peek, first], ?_⟩
    dsimp only
    rw [if_neg (by decide), if_pos rfl]
    exact parseLiteral_complete (by simp) _
  | false =>
    have first : (encode ("false".toList ++ rest)).head? = some (ascii 'f') :=
      head?_encode_cons (by decide) _
    refine ⟨_, _, by rw [peek, first], ?_⟩
    dsimp only
    rw [if_neg (by decide), if_neg (by decide), if_pos rfl]
    exact parseLiteral_complete (by simp) _
  | string string =>
    obtain ⟨others, begins⟩ := string.head
    have quote : (encode (body ++ rest)).head? = some (ascii '"') := by
      rw [begins]
      exact head?_encode_cons (by decide) _
    refine ⟨_, _, by rw [peek, quote], ?_⟩
    dsimp only
    rw [if_neg (by decide), if_neg (by decide), if_neg (by decide), if_pos rfl]
    cases within with
    | string _ fits => exact map_complete (parseString_complete string fits)
  | emptyArray isBlank' =>
    refine ⟨_, _, peek_encode (by decide) _, ?_⟩
    dsimp only
    rw [if_neg (by decide), if_neg (by decide), if_neg (by decide), if_neg (by decide), if_pos rfl]
    simp only [List.append_eq, List.append_assoc, List.singleton_append]
    exact parseArray_empty isBlank'
  | array elements =>
    refine ⟨_, _, peek_encode (by decide) _, ?_⟩
    dsimp only
    rw [if_neg (by decide), if_neg (by decide), if_neg (by decide), if_neg (by decide), if_pos rfl]
    simp only [List.append_eq, List.append_assoc, List.singleton_append]
    cases within with
    | array _ room within =>
      refine parseArray_complete reads elements room within ?_
      rw [length_encode_cons, length_encode_append] at short
      have bracket := Char.utf8Size_pos '['
      omega
  | emptyObject isBlank' =>
    refine ⟨_, _, peek_encode (by decide) _, ?_⟩
    dsimp only
    rw [if_neg (by decide), if_neg (by decide), if_neg (by decide), if_neg (by decide),
      if_neg (by decide), if_pos rfl]
    simp only [List.append_eq, List.append_assoc, List.singleton_append]
    exact parseObject_empty isBlank'
  | object members =>
    refine ⟨_, _, peek_encode (by decide) _, ?_⟩
    dsimp only
    rw [if_neg (by decide), if_neg (by decide), if_neg (by decide), if_neg (by decide),
      if_neg (by decide), if_pos rfl]
    simp only [List.append_eq, List.append_assoc, List.singleton_append]
    cases within with
    | object _ room fits within =>
      refine parseObject_complete reads members room fits within ?_
      rw [length_encode_cons, length_encode_append] at short
      have brace := Char.utf8Size_pos '{'
      omega
  | number number =>
    obtain ⟨c, others, whole, begins⟩ := number.head
    have low := beginsNumber_low begins
    have first : (encode (body ++ rest)).head? = some (ascii c) := by
      rw [whole]
      exact head?_encode_cons low _
    -- no other branch is for a byte that begins a number
    have other : ∀ d : Char, d.toNat < 128 → beginsNumber d = Bool.false → ascii c ≠ ascii d :=
      fun d low' h same => beginsNumber_ne begins h (ascii_inj low low' same)
    have number' : (decide (ascii c = ascii '-') || isJsonDigit (ascii c)) = Bool.true := by
      rw [beginsNumber, Bool.or_eq_true, decide_eq_true_eq] at begins
      rw [Bool.or_eq_true, decide_eq_true_eq, isJsonDigit_ascii c low]
      exact begins.imp (congrArg ascii) id
    refine ⟨_, _, by rw [peek, first], ?_⟩
    dsimp only
    rw [if_neg (other 'n' (by decide) (by decide)), if_neg (other 't' (by decide) (by decide)),
      if_neg (other 'f' (by decide) (by decide)), if_neg (other '"' (by decide) (by decide)),
      if_neg (other '[' (by decide) (by decide)), if_neg (other '{' (by decide) (by decide)),
      if_pos number']
    cases within with
    | number _ fits => exact map_complete (parseNumber_complete number stops fits)

end Inner

theorem parseValue_complete {place : ValuePlace} {value : JsonValue} {before body : List Char}
    (written : ValueText value body) (within : WithinLimits limits place value)
    (blank : Blank before) (stops : Stops rest) :
    parseValue total limits place (encode (before ++ (body ++ rest))) =
      .ok (value, encode rest) := by
  have levels : ∀ levels, ReadsValues limits (nestN .exhausted (parseValueBody total limits) levels)
      levels := by
    intro levels
    induction levels with
    | zero =>
      intro place value before body rest written _ _ _ short
      exact absurd short (Nat.not_le_of_lt (encode_pos written.ne_nil))
    | succ levels ih => exact parseValueBody_complete ih
  refine levels _ place value before body rest written within blank stops ?_
  rw [length_encode_append, length_encode_append]
  omega

end Complete

/-! ### The whole text -/

/-- After the value there may only be blanks. -/
theorem parseJsonWithLimits_value {source : String} {limits : JsonResourceLimits}
    {value : JsonValue} {rest : List Char}
    (ok : parseValue (encode source.toList).length limits (0, none) (encode source.toList) =
      .ok (value, encode rest)) :
    (Blank rest ∧ parseJsonWithLimits source limits = .ok value) ∨
      ∃ error, ¬Blank rest ∧ parseJsonWithLimits source limits = .error (.refused error) := by
  have run : parseJsonWithLimits source limits =
      if (encode (rest.dropWhile isBlank)).isEmpty then .ok value
      else .error (.refused ⟨(encode source.toList).length -
        (encode (rest.dropWhile isBlank)).length, .trailingCharacters⟩) := by
    rw [parseJsonWithLimits, toUTF8_toList]
    dsimp only
    simp only [ok, skipWs_encode, bind, Except.bind]
  have blank : Blank rest ↔ rest.dropWhile isBlank = [] := by
    rw [List.dropWhile_eq_nil_iff]
    rfl
  rw [run, blank]
  cases rest.dropWhile isBlank with
  | nil => exact .inl ⟨rfl, rfl⟩
  | cons c others =>
    have some : (encode (c :: others)).isEmpty = false := by
      rw [List.isEmpty_eq_false_iff]
      exact List.ne_nil_of_length_pos (encode_pos (List.cons_ne_nil c others))
    rw [some, if_neg Bool.false_ne_true]
    exact .inr ⟨_, List.cons_ne_nil c others, rfl⟩

theorem parseJsonWithLimits_complete {source : String} {limits : JsonResourceLimits}
    {value : JsonValue} (written : JsonText value source.toList)
    (within : WithinLimits limits (0, none) value) :
    parseJsonWithLimits source limits = .ok value := by
  obtain ⟨before, body, after, whole, blank, written, blank'⟩ := written
  have ends : Stops [] := nofun
  have stops : Stops (after ++ []) := ends.blank blank'
  rw [List.append_nil] at stops
  have read : parseValue (encode source.toList).length limits (0, none) (encode source.toList) =
      .ok (value, encode after) := by
    rw [whole]
    exact parseValue_complete written within blank stops
  rcases parseJsonWithLimits_value read with ⟨-, ok⟩ | ⟨error, other, -⟩
  · exact ok
  · exact absurd blank' other

/-- Every run ends in one of two ways. -/
theorem parseJsonWithLimits_sound (source : String) (limits : JsonResourceLimits) :
    (∃ stop, parseJsonWithLimits source limits = .error stop ∧ Refused stop) ∨
      ∃ value, parseJsonWithLimits source limits = .ok value ∧ JsonText value source.toList ∧
        WithinLimits limits (0, none) value := by
  have read : Yields Refused (parseValue (encode source.toList).length limits (0, none))
      source.toList (PlacedText limits (0, none)) := yields_parseValue (0, none)
  rcases read with ⟨stop, failed, refused⟩ | ⟨value, text, rest, ok, split, placed⟩
  · refine .inl ⟨stop, ?_, refused⟩
    rw [parseJsonWithLimits, toUTF8_toList]
    dsimp only
    rw [failed]
    rfl
  · obtain ⟨before, body, rfl, blank, written, within⟩ := placed
    rw [List.append_assoc] at split
    rcases parseJsonWithLimits_value ok with ⟨blank', read⟩ | ⟨error, -, failed⟩
    · exact .inr ⟨value, read, ⟨before, body, rest, split, blank, written, blank'⟩, within⟩
    · exact .inl ⟨_, failed, error, rfl⟩

/-- A JSON text of the grammar within the limits is read as the value that the grammar gives it,
    nothing else is read, and what is not read is refused: no slice is off the borders of
    characters, and no loop comes to its bound. -/
theorem parseJsonWithLimits_exact (source : String) (limits : JsonResourceLimits) :
    (∀ value, parseJsonWithLimits source limits = .ok value ↔
      JsonText value source.toList ∧ WithinLimits limits (0, none) value) ∧
    ∀ stop, parseJsonWithLimits source limits = .error stop → Refused stop := by
  rcases parseJsonWithLimits_sound source limits with ⟨stop, failed, refused⟩ |
    ⟨value, ok, written, within⟩
  · refine ⟨fun value => ⟨fun ok => ?_, fun h => parseJsonWithLimits_complete h.1 h.2⟩, ?_⟩
    · rw [failed] at ok
      cases ok
    · intro stop' failed'
      rw [failed] at failed'
      cases failed'
      exact refused
  · refine ⟨fun value' => ⟨fun ok' => ?_, fun h => parseJsonWithLimits_complete h.1 h.2⟩, ?_⟩
    · rw [ok] at ok'
      cases ok'
      exact ⟨written, within⟩
    · intro stop failed
      rw [ok] at failed
      cases failed

end NpaCore.Package
