import NpaCore.Frontend.TermSource
import NpaCore.Lib.Descent

/-!
# The two lexers, with their spans

`lex` of `lexer.rs` and `lex_machine_surface_tokens` of `term_source.rs` on the characters of a
source with their byte offsets. Spans hold offsets of 32 bits, and `lexer.rs` cuts the text of a
token out of the source at such an offset, so the source is a parameter of its steps. Arithmetic
wraps.
-/

namespace NpaCore.Frontend

open NpaCore.Parser

/-! ### Characters with offsets -/

/-- What is left of `source.char_indices()`. -/
abbrev CharIndices := List (Nat × Char)

def charIndices : Nat → List Char → CharIndices
  | _, [] => []
  | offset, ch :: rest => (offset, ch) :: charIndices (offset + ch.utf8Size) rest

structure Span where
  start : UInt32
  stop : UInt32
  deriving DecidableEq, Repr

/-- `Span::new` on two offsets, each `as u32`. -/
def Span.of (start stop : Nat) : Span := ⟨.ofNat start, .ofNat stop⟩

/-- How a lexer stops early: with a diagnostic, or by a slice that is not on the borders of
    characters. -/
inductive LexStop where
  | refused (diagnostic : MachineDiagnostic)
  | panicked
  deriving DecidableEq, Repr

abbrev LexResult := Except LexStop

/-- A lexer works on the characters that are left. -/
abbrev CharParser := Parser (Nat × Char) LexStop

def dropBytes : Nat → List Char → Option (List Char)
  | 0, text => some text
  | _, [] => none
  | bytes, ch :: text => if ch.utf8Size ≤ bytes then dropBytes (bytes - ch.utf8Size) text else none

def takeBytes : Nat → List Char → Option (List Char)
  | 0, _ => some []
  | _, [] => none
  | bytes, ch :: text =>
    if ch.utf8Size ≤ bytes then (takeBytes (bytes - ch.utf8Size) text).map (ch :: ·) else none

/-- `source[start..stop]`. -/
def slice (source : List Char) (start stop : Nat) : LexResult (List Char) :=
  if start ≤ stop then
    Result.okOr ((dropBytes start source).bind (takeBytes (stop - start))) .panicked
  else .error .panicked

/-- `str::parse::<u64>`. -/
def parseU64 (text : List Char) : Option UInt64 :=
  let digits := match text with
    | '+' :: digits => digits
    | _ => text
  if digits ≠ [] ∧ digits.all Char.isDigit ∧ numeralValue digits < 2 ^ 64 then
    some (.ofNat (numeralValue digits))
  else none

/-! ### Loops -/

/-- Takes characters while the predicate holds; the end of the last of them. -/
def consumeLoop (predicate : Char → Bool) (stop : Nat) : CharIndices → Nat × CharIndices
  | [] => (stop, [])
  | (offset, ch) :: chars =>
    if predicate ch then consumeLoop predicate (offset + ch.utf8Size) chars
    else (stop, (offset, ch) :: chars)

def consumeWhileEnd (firstOffset : Nat) (first : Char) (chars : CharIndices)
    (predicate : Char → Bool) : Nat × CharIndices :=
  consumeLoop predicate (firstOffset + first.utf8Size) chars

/-- The loop over a string literal: the end of the closing quote, if there is one. -/
def stringLiteralLoop : Bool → CharIndices → Option (Nat × CharIndices)
  | _, [] => none
  | true, _ :: chars => stringLiteralLoop false chars
  | false, (offset, ch) :: chars =>
    if ch = '\\' then stringLiteralLoop true chars
    else if ch = '"' then some (offset + ch.utf8Size, chars)
    else stringLiteralLoop false chars

/-- The loop of `lex_ident`: the offset of the last character, not its end. -/
def identLoop (last : Nat) : CharIndices → Nat × CharIndices
  | [] => (last, [])
  | (offset, ch) :: chars =>
    if isIdentContinue ch then identLoop offset chars else (last, (offset, ch) :: chars)

/-! ### The lexer of the parser -/

namespace Spanned

structure Token where
  kind : TokenKind
  span : Span
  deriving DecidableEq, Repr

section Lex

variable (source : List Char)

def lexComment (firstOffset : Nat) (first : Char) : CharParser Token
  | [] => .error .panicked
  | (_, second) :: chars =>
    let (stop, chars) :=
      consumeLoop (· ≠ '\n') (firstOffset + first.utf8Size + second.utf8Size) chars
    .ok (⟨.comment, .of firstOffset stop⟩, chars)

def lexStringLiteral (start : UInt32) (startOffset : Nat) : CharParser Token := fun chars =>
  match stringLiteralLoop false chars with
  | some (stop, chars) => .ok (⟨.stringLiteral, ⟨start, .ofNat stop⟩⟩, chars)
  | none => .error (.refused
      (.parse s!"unterminated string literal starting at byte offset {startOffset}"))

def lexIdent (start : UInt32) (firstOffset : Nat) : CharParser Token := fun chars => do
  let (last, chars) := identLoop firstOffset chars
  let tail ← Result.okOr (dropBytes last source) .panicked
  let ch ← Result.okOr tail.head? .panicked
  let stop := last + ch.utf8Size
  let text ← slice source start.toNat stop
  let span := ⟨start, .ofNat stop⟩
  if String.ofList text = "let" then .error (.refused .removedTermLet)
  else
    match keywordOf (String.ofList text) with
    | some word => .ok (⟨.keyword word, span⟩, chars)
    | none => .ok (⟨.ident (String.ofList text), span⟩, chars)

def lexNumber (start : UInt32) (firstOffset : Nat) (first : Char) : CharParser Token :=
  fun chars => do
    let (stop, chars) := consumeLoop Char.isDigit (firstOffset + first.utf8Size) chars
    let text ← slice source start.toNat stop
    let value ← Result.okOr (parseU64 text)
      (.refused (.parse "universe level numeral is too large"))
    .ok (⟨.number value, ⟨start, .ofNat stop⟩⟩, chars)

def lexNamedHole (start : UInt32) : CharParser Token
  | [] => .ok (⟨.hole, ⟨start, start + 1⟩⟩, [])
  | (firstOffset, first) :: chars =>
    if isIdentStart first then do
      let (stop, chars) := consumeLoop isIdentContinue (firstOffset + first.utf8Size) chars
      let text ← slice source (start.toNat + 1) stop
      .ok (⟨.namedHole (String.ofList text), ⟨start, .ofNat stop⟩⟩, chars)
    else .ok (⟨.hole, ⟨start, start + 1⟩⟩, (firstOffset, first) :: chars)

/-- A token of one byte. -/
def single (kind : TokenKind) (start : UInt32) : CharParser Token := fun chars =>
  .ok (⟨kind, ⟨start, start + 1⟩⟩, chars)

/-- `TokenKind::Unsupported`, which is refused at once. -/
def unsupported : CharParser Token := fail (.refused unsupportedCharacter)

/-- The token that begins with a character. -/
def lexToken (offset : Nat) (ch : Char) : CharParser Token := fun chars =>
  let start := UInt32.ofNat offset
  match ch with
  | '-' =>
    match chars with
    | (_, '-') :: _ => lexComment offset ch chars
    | _ => unsupported chars
  | '"' => lexStringLiteral start offset chars
  | '.' => single .dot start chars
  | '{' => single .lbrace start chars
  | '}' => single .rbrace start chars
  | '(' => single .lparen start chars
  | ')' => single .rparen start chars
  | ',' => single .comma start chars
  | '@' => single .at start chars
  | ':' =>
    match chars with
    | (nextOffset, '=') :: chars => .ok (⟨.colonEq, ⟨start, .ofNat (nextOffset + 1)⟩⟩, chars)
    | _ => single .colon start chars
  | '=' =>
    match chars with
    | (nextOffset, '>') :: chars => .ok (⟨.fatArrow, ⟨start, .ofNat (nextOffset + 1)⟩⟩, chars)
    | _ => unsupported chars
  | '_' => single .hole start chars
  | '?' => lexNamedHole source start chars
  | ch =>
    if ch.isDigit then lexNumber source start offset ch chars
    else if isIdentStart ch then lexIdent source start offset chars
    else unsupported chars

/-- One turn of the loop of `lex`: whitespace makes no token. -/
def lexTurn : CharParser (Option Token)
  | [] => .ok (none, [])
  | (offset, ch) :: chars =>
    if isWhitespace ch then .ok (none, chars)
    else do
      let (token, chars) ← lexToken source offset ch chars
      .ok (some token, chars)

end Lex

def lex (source : String) : LexResult (List Token) := do
  let chars := source.toList
  let (tokens, _) ← whileAhead (! ·.isEmpty) (lexTurn chars) (charIndices 0 chars)
  .ok (tokens.reduceOption ++ [⟨.eof, .of (utf8Length chars) (utf8Length chars)⟩])

end Spanned

/-! ### The token-only lexer -/

inductive MachineSurfaceTokenKind where
  | identLike
  | reserved
  | dot
  | punctuation
  | natural
  | stringLiteral
  | whitespace
  | comment
  | externalCommand
  deriving DecidableEq, Repr

structure MachineSurfaceToken where
  kind : MachineSurfaceTokenKind
  spelling : String
  span : Span
  deriving DecidableEq, Repr

section Surface

variable (source : List Char)

def consumePunctuationPair (firstOffset : Nat) (first second : Char) :
    CharIndices → Nat × CharIndices
  | [] => (firstOffset + first.utf8Size, [])
  | (offset, ch) :: chars =>
    if ch = second then (offset + ch.utf8Size, chars)
    else (firstOffset + first.utf8Size, (offset, ch) :: chars)

def consumeOptionalNamedHoleEnd (start : Nat) : CharIndices → Nat × CharIndices
  | [] => (start + 1, [])
  | (firstOffset, first) :: chars =>
    if isIdentStart first then consumeWhileEnd firstOffset first chars isIdentContinue
    else (start + 1, (firstOffset, first) :: chars)

def consumeNaturalEnd (start : Nat) (first : Char) (chars : CharIndices) :
    LexResult (Nat × CharIndices) := do
  let (stop, chars) := consumeWhileEnd start first chars Char.isDigit
  let text ← slice source start stop
  let _ ← Result.okOr (parseU64 text) (.refused (.parse "universe level numeral is too large"))
  .ok (stop, chars)

/-- The kind and the end of the token that begins with a character. -/
def surfaceKind (offset : Nat) (ch : Char) (chars : CharIndices) :
    LexResult (MachineSurfaceTokenKind × Nat × CharIndices) :=
  if isWhitespace ch then .ok (.whitespace, consumeWhileEnd offset ch chars isWhitespace)
  else
    match ch with
    | '-' =>
      match chars with
      | (_, '-') :: chars =>
        .ok (.comment, consumeLoop (· ≠ '\n') (offset + ch.utf8Size + '-'.utf8Size) chars)
      | _ => .error (.refused unsupportedCharacter)
    | '"' =>
      match stringLiteralLoop false chars with
      | some (stop, chars) => .ok (.stringLiteral, stop, chars)
      | none => .error (.refused (.parse "unterminated string literal"))
    | '.' => .ok (.dot, offset + ch.utf8Size, chars)
    | ':' => .ok (.punctuation, consumePunctuationPair offset ch '=' chars)
    | '=' =>
      match chars with
      | (_, '>') :: _ => .ok (.punctuation, consumePunctuationPair offset ch '>' chars)
      | _ => .error (.refused unsupportedCharacter)
    | '?' => .ok (.punctuation, consumeOptionalNamedHoleEnd offset chars)
    | '{' | '}' | '(' | ')' | ',' | '@' | '_' => .ok (.punctuation, offset + ch.utf8Size, chars)
    | ch =>
      if ch.isDigit then do
        let (stop, chars) ← consumeNaturalEnd source offset ch chars
        .ok (.natural, stop, chars)
      else if isIdentStart ch then do
        let (stop, chars) := consumeWhileEnd offset ch chars isIdentContinue
        let spelling ← slice source offset stop
        .ok (if isReservedSpelling (String.ofList spelling) then .reserved else .identLike,
          stop, chars)
      else .error (.refused unsupportedCharacter)

/-- One turn of the loop of `lex_machine_surface_tokens`. -/
def surfaceTurn : CharParser (Option MachineSurfaceToken)
  | [] => .ok (none, [])
  | (offset, ch) :: chars => do
    let (kind, stop, chars) ← surfaceKind source offset ch chars
    let spelling ← slice source offset stop
    .ok (some ⟨kind, String.ofList spelling, .of offset stop⟩, chars)

end Surface

def lexMachineSurfaceTokens (source : String) : LexResult (List MachineSurfaceToken) := do
  let chars := source.toList
  let (tokens, _) ← whileAhead (! ·.isEmpty) (surfaceTurn chars) (charIndices 0 chars)
  .ok tokens.reduceOption

end NpaCore.Frontend
