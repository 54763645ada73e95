import Mathlib.Algebra.Ring.Nat
import NpaCore.Lib.Utf8Parser

/-!
# The JSON parser

`npa-package/src/json.rs`. The parser works on the bytes that are left, and its offset is what
they lack of the whole source. A slice of the source that does not begin and end on borders of
characters panics. Loops and nested values are bounded by the bytes that are left; where a bound
is reached, the parser stops as `exhausted`.
-/

namespace NpaCore.Package

open NpaCore.Utf8

/-! ### Values -/

/-- The largest `usize`. -/
def usizeMax : Nat := 2 ^ 64 - 1

structure JsonResourceLimits where
  nestingDepth : Nat
  stringBytes : Nat
  numberBytes : Nat
  arrayElements : Nat
  objectMembers : Nat
  arrayMemberElements : List (String × Nat)

def maxJsonNestingDepth : Nat := 512

def defaultJsonResourceLimits : JsonResourceLimits where
  nestingDepth := maxJsonNestingDepth
  stringBytes := usizeMax
  numberBytes := usizeMax
  arrayElements := usizeMax
  objectMembers := usizeMax
  arrayMemberElements := []

mutual

inductive JsonValue where
  | null
  | bool (value : Bool)
  | number (text : String)
  | string (text : String)
  | array (values : List JsonValue)
  | object (members : List JsonMember)

inductive JsonMember where
  | mk (key : String) (value : JsonValue)

end

/-! ### Errors -/

inductive JsonParseErrorKind where
  | expectedValue
  | unexpectedEof
  | unexpectedByte (expected : String) (actual : UInt8)
  | trailingCharacters
  | invalidNumber
  | invalidEscape
  | invalidUnicodeEscape
  | controlCharacterInString
  | nestingDepthExceeded (maxDepth : Nat)
  | stringBytesExceeded (maxBytes : Nat)
  | numberBytesExceeded (maxBytes : Nat)
  | arrayElementsExceeded (maxElements : Nat)
  | objectMembersExceeded (maxMembers : Nat)
  deriving DecidableEq, Repr

structure JsonParseError where
  offset : Nat
  kind : JsonParseErrorKind
  deriving DecidableEq, Repr

/-- How the parser stops early: with an error, by a slice off the borders of characters, or at
    the bound of a loop. -/
inductive JsonStop where
  | refused (error : JsonParseError)
  | panicked
  | exhausted
  deriving DecidableEq, Repr

abbrev JsonParser := Parser UInt8 JsonStop

/-! ### Bytes -/

def peek : JsonParser (Option UInt8) := fun rest => .ok (rest.head?, rest)

/-- `self.offset += count`. -/
def advance (count : Nat) : JsonParser Unit := fun rest => .ok ((), rest.drop count)

def takeByte : JsonParser (Option UInt8) := fun rest => .ok (rest.head?, rest.tail)

def isJsonWhitespace (byte : UInt8) : Bool :=
  byte = ascii ' ' || byte = ascii '\n' || byte = ascii '\r' || byte = ascii '\t'

def skipWs : JsonParser Unit := fun rest => .ok ((), rest.dropWhile isJsonWhitespace)

def isJsonDigit (byte : UInt8) : Bool := ascii '0' ≤ byte && byte ≤ ascii '9'

def skipDigits : JsonParser Unit := fun rest => .ok ((), rest.dropWhile isJsonDigit)

def hexNibble (byte : UInt8) : Option UInt8 :=
  if ascii '0' ≤ byte && byte ≤ ascii '9' then some (byte - ascii '0')
  else if ascii 'a' ≤ byte && byte ≤ ascii 'f' then some (byte - ascii 'a' + 10)
  else if ascii 'A' ≤ byte && byte ≤ ascii 'F' then some (byte - ascii 'A' + 10)
  else none

section Parser

/- The length of the source, and the limits. -/
variable (total : Nat) (limits : JsonResourceLimits)

/-- `Err(self.error(kind))`. -/
def refuse {α : Type} (kind : JsonParseErrorKind) : JsonParser α := fun rest =>
  .error (.refused ⟨total - rest.length, kind⟩)

/-- The error at the byte that was just taken. -/
def refuseBefore {α : Type} (kind : JsonParseErrorKind) : JsonParser α := fun rest =>
  .error (.refused ⟨total - rest.length - 1, kind⟩)

def consumeExpectedByte (expected : UInt8) (expectedName : String) : JsonParser Unit := do
  match ← takeByte with
  | some actual =>
    if actual = expected then pure ()
    else refuseBefore total (.unexpectedByte expectedName actual)
  | none => refuse total .unexpectedEof

def parseLiteral : List UInt8 → JsonValue → JsonParser JsonValue
  | [], value => pure value
  | expected :: literal, value => do
    consumeExpectedByte total expected "literal"
    parseLiteral literal value

/-! ### Strings -/

/-- `self.source[self.offset..].chars().next()`, which is there when a byte is. -/
def firstChar : JsonParser Char := fun rest =>
  if (rest.head?).all isBoundary then
    match decode rest with
    | some ch => .ok (ch, rest)
    | none => refuse total .unexpectedEof rest
  else .error .panicked

def pushStringChar (out : String) (ch : Char) : JsonParser String :=
  if out.utf8ByteSize + ch.utf8Size > limits.stringBytes then
    refuse total (.stringBytesExceeded limits.stringBytes)
  else pure (out.push ch)

/-- The four digits of `parse_hex_u16`, of which `count` are still to be read. -/
def parseHexDigits : Nat → UInt16 → JsonParser UInt16
  | 0, value => pure value
  | count + 1, value => do
    match ← takeByte with
    | none => refuse total .unexpectedEof
    | some byte =>
      match hexNibble byte with
      | none => refuse total .invalidUnicodeEscape
      | some nibble => parseHexDigits count ((value <<< 4) ||| nibble.toUInt16)

def parseHexU16 : JsonParser UInt16 := parseHexDigits total 4 0

/-- `char::from_u32`. -/
def charFromU32 (scalar : UInt32) : Option Char :=
  if valid : scalar.isValidChar then some ⟨scalar, valid⟩ else none

def parseUnicodeScalar : JsonParser UInt32 := do
  let unit ← parseHexU16 total
  if 0xd800 ≤ unit && unit ≤ 0xdbff then do
    consumeExpectedByte total (ascii '\\') "unicode low surrogate"
    consumeExpectedByte total (ascii 'u') "unicode low surrogate"
    let low ← parseHexU16 total
    if 0xdc00 ≤ low && low ≤ 0xdfff then
      let highTen := (unit - 0xd800).toUInt32
      let lowTen := (low - 0xdc00).toUInt32
      pure ((0x10000 : UInt32) + ((highTen <<< 10) ||| lowTen))
    else refuse total .invalidUnicodeEscape
  else pure unit.toUInt32

def parseUnicodeEscape : JsonParser Char := do
  let scalar ← parseUnicodeScalar total
  match charFromU32 scalar with
  | some ch => pure ch
  | none => refuse total .invalidUnicodeEscape

/-- The escapes of one letter. -/
def escapedChar (byte : UInt8) : Option Char :=
  if byte = ascii '"' then some '"'
  else if byte = ascii '\\' then some '\\'
  else if byte = ascii '/' then some '/'
  else if byte = ascii 'b' then some (Char.ofNat 8)
  else if byte = ascii 'f' then some (Char.ofNat 12)
  else if byte = ascii 'n' then some '\n'
  else if byte = ascii 'r' then some '\r'
  else if byte = ascii 't' then some '\t'
  else none

def parseStringEscape (out : String) : JsonParser String := do
  match ← takeByte with
  | none => refuse total .unexpectedEof
  | some byte =>
    match escapedChar byte with
    | some ch => pushStringChar total limits out ch
    | none =>
      if byte = ascii 'u' then do
        let ch ← parseUnicodeEscape total
        pushStringChar total limits out ch
      else refuse total .invalidEscape

/-- One turn of the loop of `parse_string`. -/
def parseStringTurn (out : String) : JsonParser (String ⊕ String) := do
  match ← peek with
  | none => refuse total .unexpectedEof
  | some byte =>
    if byte = ascii '"' then do
      advance 1
      pure (.inr out)
    else if byte = ascii '\\' then do
      advance 1
      let out ← parseStringEscape total limits out
      pure (.inl out)
    else if byte ≤ 0x1f then refuse total .controlCharacterInString
    else do
      let ch ← firstChar total
      advance ch.utf8Size
      let out ← pushStringChar total limits out ch
      pure (.inl out)

def parseString : JsonParser String := do
  consumeExpectedByte total (ascii '"') "string"
  loop .exhausted (parseStringTurn total limits) ""

/-! ### Numbers -/

/-- At least one digit. -/
def parseDigits : JsonParser Unit := do
  let digitStart ← Parser.remaining
  skipDigits
  let digitEnd ← Parser.remaining
  if digitEnd.length = digitStart.length then refuse total .invalidNumber else pure ()

def parseMinus : JsonParser Unit := do
  let byte ← peek
  if byte = some (ascii '-') then advance 1 else pure ()

def parseIntegerPart : JsonParser Unit := do
  match ← peek with
  | none => refuse total .invalidNumber
  | some byte =>
    if byte = ascii '0' then advance 1
    else if ascii '1' ≤ byte && byte ≤ ascii '9' then do
      advance 1
      skipDigits
    else refuse total .invalidNumber

def parseFraction : JsonParser Unit := do
  let byte ← peek
  if byte = some (ascii '.') then do
    advance 1
    parseDigits total
  else pure ()

def parseSign : JsonParser Unit := do
  let byte ← peek
  if byte = some (ascii '+') || byte = some (ascii '-') then advance 1 else pure ()

def parseExponent : JsonParser Unit := do
  let byte ← peek
  if byte = some (ascii 'e') || byte = some (ascii 'E') then do
    advance 1
    parseSign
    parseDigits total
  else pure ()

/-- `self.source[start..self.offset]`, where `start` is what was left at the start. -/
def sliceFrom (start : List UInt8) : JsonParser String := fun rest =>
  if (start.head?).all isBoundary && (rest.head?).all isBoundary then
    match String.fromUTF8? (start.take (start.length - rest.length)).toByteArray with
    | some text => .ok (text, rest)
    | none => .error .panicked
  else .error .panicked

def parseNumber : JsonParser String := do
  let start ← Parser.remaining
  parseMinus
  parseIntegerPart total
  parseFraction total
  parseExponent total
  let stop ← Parser.remaining
  let numberBytes := start.length - stop.length
  if numberBytes > limits.numberBytes then
    refuse total (.numberBytesExceeded limits.numberBytes)
  else sliceFrom start

/-! ### Values -/

/-- The depth of a value, and the bound on its elements when it is an array under a key. -/
abbrev ValuePlace := Nat × Option Nat

/-- One turn of the loop of `parse_array`. -/
def parseArrayTurn (inner : ValuePlace → JsonParser JsonValue) (depth maxElements : Nat)
    (values : List JsonValue) : JsonParser (List JsonValue ⊕ JsonValue) := do
  if values.length = maxElements then refuse total (.arrayElementsExceeded maxElements)
  else do
    let value ← inner (depth + 1, none)
    skipWs
    match ← takeByte with
    | some actual =>
      if actual = ascii ',' then pure (.inl (values ++ [value]))
      else if actual = ascii ']' then pure (.inr (.array (values ++ [value])))
      else refuseBefore total (.unexpectedByte "',' or ']'" actual)
    | none => refuse total .unexpectedEof

def parseArray (inner : ValuePlace → JsonParser JsonValue) (depth maxElements : Nat) :
    JsonParser JsonValue := do
  consumeExpectedByte total (ascii '[') "array"
  skipWs
  let byte ← peek
  if byte = some (ascii ']') then do
    advance 1
    pure (.array [])
  else loop .exhausted (parseArrayTurn total inner depth maxElements) []

/-- The bound on the elements of an array under this key. -/
def arrayMemberBound (key : String) : Option Nat :=
  limits.arrayMemberElements.findSome? fun (field, maximum) =>
    if key = field then some maximum else none

/-- One turn of the loop of `parse_object`. -/
def parseObjectTurn (inner : ValuePlace → JsonParser JsonValue) (depth : Nat)
    (members : List JsonMember) : JsonParser (List JsonMember ⊕ JsonValue) := do
  skipWs
  if members.length = limits.objectMembers then
    refuse total (.objectMembersExceeded limits.objectMembers)
  else do
    let byte ← peek
    if byte ≠ some (ascii '"') then
      refuse total (.unexpectedByte "object key string" (byte.getD 0))
    else do
      let key ← parseString total limits
      skipWs
      consumeExpectedByte total (ascii ':') "object colon"
      let value ← inner (depth + 1, arrayMemberBound limits key)
      skipWs
      match ← takeByte with
      | some actual =>
        if actual = ascii ',' then pure (.inl (members ++ [.mk key value]))
        else if actual = ascii '}' then pure (.inr (.object (members ++ [.mk key value])))
        else refuseBefore total (.unexpectedByte "',' or '\x7d'" actual)
      | none => refuse total .unexpectedEof

def parseObject (inner : ValuePlace → JsonParser JsonValue) (depth : Nat) :
    JsonParser JsonValue := do
  consumeExpectedByte total (ascii '{') "object"
  skipWs
  let byte ← peek
  if byte = some (ascii '}') then do
    advance 1
    pure (.object [])
  else loop .exhausted (parseObjectTurn total limits inner depth) []

/-- `parse_value_with_array_limit`, with the parser of the values inside. -/
def parseValueBody (inner : ValuePlace → JsonParser JsonValue) (place : ValuePlace) :
    JsonParser JsonValue := do
  let (depth, arrayElements) := place
  if depth > limits.nestingDepth then refuse total (.nestingDepthExceeded limits.nestingDepth)
  else do
    skipWs
    match ← peek with
    | none => refuse total .expectedValue
    | some byte =>
      if byte = ascii 'n' then parseLiteral total ("null".toList.map ascii) .null
      else if byte = ascii 't' then parseLiteral total ("true".toList.map ascii) (.bool true)
      else if byte = ascii 'f' then parseLiteral total ("false".toList.map ascii) (.bool false)
      else if byte = ascii '"' then JsonValue.string <$> parseString total limits
      else if byte = ascii '[' then
        parseArray total inner depth
          (min (arrayElements.getD limits.arrayElements) limits.arrayElements)
      else if byte = ascii '{' then parseObject total limits inner depth
      else if byte = ascii '-' || isJsonDigit byte then
        JsonValue.number <$> parseNumber total limits
      else refuse total .expectedValue

def parseValue : ValuePlace → JsonParser JsonValue :=
  nest .exhausted (parseValueBody total limits)

end Parser

def parseJsonWithLimits (source : String) (limits : JsonResourceLimits) :
    Except JsonStop JsonValue := do
  let bytes := source.toUTF8.data.toList
  let (value, rest) ← parseValue bytes.length limits (0, none) bytes
  let (_, rest) ← skipWs rest
  if rest.isEmpty then .ok value
  else .error (.refused ⟨bytes.length - rest.length, .trailingCharacters⟩)

def parseJson (source : String) : Except JsonStop JsonValue :=
  parseJsonWithLimits source defaultJsonResourceLimits

end NpaCore.Package
