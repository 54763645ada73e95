import Mathlib.Algebra.Ring.Nat
import NpaCore.Lib.Result

/-!
# The lexer of Machine Surface

Tokens and diagnostics of `npa-frontend`, as far as terms and their elaboration need
them, and `lexer.rs`. Spans are left out: no decision of the lexer, the parser or the
codec reads one. A keyword token is a value of `Keyword`.
-/

namespace NpaCore.Frontend

inductive MachineDiagnosticKind where
  | parseError
  | unsupportedSyntax
  | unsupportedItem
  | importAfterItem
  | duplicateOpaqueModifier
  | opaqueModifierNotFollowedByDef
  | importResolutionError
  | missingVerifiedImport
  | unknownGlobalName
  | shortGlobalName
  | ambiguousGlobalName
  | globalShadowedByLocal
  | unknownLocalName
  | duplicateDeclaration
  | duplicateUniverseParam
  | unknownUniverseParam
  | universeLevelTooLarge
  | implicitArgumentRequired
  | missingExplicitUniverse
  | unannotatedBinder
  | removedTermLet
  | holeNotAllowed
  | expectedFunctionType
  | expectedSort
  | typeMismatch
  | kernelRejected
  | certificateRejected
  deriving DecidableEq, Repr

structure MachineDiagnostic where
  kind : MachineDiagnosticKind
  message : String
  deriving DecidableEq, Repr

abbrev MachineResult := Except MachineDiagnostic

namespace MachineDiagnostic

def parse (message : String) : MachineDiagnostic := ⟨.parseError, message⟩

def removedTermLet : MachineDiagnostic :=
  ⟨.removedTermLet, "term-level `let` has been removed; substitute the value directly, apply " ++
    "an explicitly typed `fun`, use `have` for a local proof, or introduce a named " ++
    "module-level declaration"⟩

def unsupported (text : String) : MachineDiagnostic :=
  ⟨.unsupportedSyntax, "unsupported Machine Surface syntax: " ++ text⟩

end MachineDiagnostic

/-! ### Tokens -/

inductive Keyword where
  | importKw
  | opaqueKw
  | defKw
  | theoremKw
  | funKw
  | forallKw
  | propKw
  | typeKw
  | sortKw
  | succKw
  | maxKw
  | imaxKw
  | openKw
  | namespaceKw
  | matchKw
  | withKw
  | notationKw
  | infixKw
  | infixlKw
  | infixrKw
  | axiomKw
  | inductiveKw
  deriving DecidableEq, Repr

inductive TokenKind where
  | ident (name : String)
  | number (value : UInt64)
  | keyword (word : Keyword)
  | dot
  | lbrace
  | rbrace
  | lparen
  | rparen
  | colon
  | colonEq
  | comma
  | fatArrow
  | at
  | hole
  | namedHole (name : String)
  | stringLiteral
  | comment
  | eof
  deriving DecidableEq, Repr

/-- The `match` of `lex_ident`. -/
def keywordOf (text : String) : Option Keyword :=
  match text with
  | "import" => some .importKw
  | "opaque" => some .opaqueKw
  | "def" => some .defKw
  | "theorem" => some .theoremKw
  | "fun" => some .funKw
  | "forall" => some .forallKw
  | "Prop" => some .propKw
  | "Type" => some .typeKw
  | "Sort" => some .sortKw
  | "succ" => some .succKw
  | "max" => some .maxKw
  | "imax" => some .imaxKw
  | "open" => some .openKw
  | "namespace" => some .namespaceKw
  | "match" => some .matchKw
  | "with" => some .withKw
  | "notation" => some .notationKw
  | "infix" => some .infixKw
  | "infixl" => some .infixlKw
  | "infixr" => some .infixrKw
  | "axiom" => some .axiomKw
  | "inductive" => some .inductiveKw
  | _ => none

/-! ### Characters -/

/-- `char::is_whitespace`: the Unicode property `White_Space`. -/
def isWhitespace (c : Char) : Bool :=
  let code := c.toNat
  (9 ≤ code && code ≤ 13) || code = 0x20 || code = 0x85 || code = 0xa0 || code = 0x1680 ||
    (0x2000 ≤ code && code ≤ 0x200a) || code = 0x2028 || code = 0x2029 || code = 0x202f ||
    code = 0x205f || code = 0x3000

def isIdentStart (c : Char) : Bool := c.isAlpha

def isIdentContinue (c : Char) : Bool := c.isAlphanum || c = '_' || c = Char.ofNat 39

/-! ### Tokens from characters -/

def utf8Length (text : List Char) : Nat := (text.map Char.utf8Size).sum

/-- The rest of a string literal; `escaped` after a backslash. -/
def lexStringLiteral (startOffset : Nat) :
    Bool → List Char → MachineResult (TokenKind × List Char)
  | _, [] =>
    .error (.parse s!"unterminated string literal starting at byte offset {startOffset}")
  | true, _ :: rest => lexStringLiteral startOffset false rest
  | false, c :: rest =>
    if c = '\\' then lexStringLiteral startOffset true rest
    else if c = '"' then .ok (.stringLiteral, rest)
    else lexStringLiteral startOffset false rest

def lexIdent (first : Char) (rest : List Char) : MachineResult (TokenKind × List Char) :=
  let text := String.ofList (first :: rest.takeWhile isIdentContinue)
  let rest := rest.dropWhile isIdentContinue
  if text = "let" then .error .removedTermLet
  else
    match keywordOf text with
    | some word => .ok (.keyword word, rest)
    | none => .ok (.ident text, rest)

/-- `str::parse::<u64>` on decimal digits, without the bound. -/
def numeralValue (digits : List Char) : Nat :=
  digits.foldl (fun value digit => 10 * value + (digit.toNat - '0'.toNat)) 0

def lexNumber (first : Char) (rest : List Char) : MachineResult (TokenKind × List Char) :=
  let value := numeralValue (first :: rest.takeWhile Char.isDigit)
  if value < 2 ^ 64 then .ok (.number (UInt64.ofNat value), rest.dropWhile Char.isDigit)
  else .error (.parse "universe level numeral is too large")

def lexNamedHole (rest : List Char) : TokenKind × List Char :=
  match rest with
  | [] => (.hole, rest)
  | first :: others =>
    if isIdentStart first then
      (.namedHole (String.ofList (first :: others.takeWhile isIdentContinue)),
        others.dropWhile isIdentContinue)
    else (.hole, rest)

def unsupportedCharacter : MachineDiagnostic :=
  .unsupported "character is not part of Machine Surface syntax"

/-- The token that begins with a character, in a source of `size` bytes. -/
def lexToken (size : Nat) (c : Char) (rest : List Char) :
    MachineResult (TokenKind × List Char) :=
  match c with
  | '-' =>
    match rest with
    | '-' :: rest => .ok (.comment, rest.dropWhile (· ≠ '\n'))
    | _ => .error unsupportedCharacter
  | '"' => lexStringLiteral (size - utf8Length (c :: rest)) false rest
  | '.' => .ok (.dot, rest)
  | '{' => .ok (.lbrace, rest)
  | '}' => .ok (.rbrace, rest)
  | '(' => .ok (.lparen, rest)
  | ')' => .ok (.rparen, rest)
  | ',' => .ok (.comma, rest)
  | '@' => .ok (.at, rest)
  | ':' =>
    match rest with
    | '=' :: rest => .ok (.colonEq, rest)
    | _ => .ok (.colon, rest)
  | '=' =>
    match rest with
    | '>' :: rest => .ok (.fatArrow, rest)
    | _ => .error unsupportedCharacter
  | '_' => .ok (.hole, rest)
  | '?' => .ok (lexNamedHole rest)
  | c =>
    if c.isDigit then lexNumber c rest
    else if isIdentStart c then lexIdent c rest
    else .error unsupportedCharacter

theorem lexStringLiteral_length {start : Nat} {escaped : Bool} {input rest : List Char}
    {kind : TokenKind} (h : lexStringLiteral start escaped input = .ok (kind, rest)) :
    rest.length ≤ input.length := by
  induction input generalizing escaped with
  | nil => simp [lexStringLiteral] at h
  | cons c others ih =>
    cases escaped with
    | true => exact Nat.le_succ_of_le (ih (by simpa only [lexStringLiteral] using h))
    | false =>
      simp only [lexStringLiteral] at h
      split at h
      · exact Nat.le_succ_of_le (ih h)
      · split at h
        · cases h
          exact Nat.le_succ _
        · exact Nat.le_succ_of_le (ih h)

/-- A token takes its first character and perhaps more. -/
theorem lexToken_length {size : Nat} {c : Char} {input rest : List Char} {kind : TokenKind}
    (h : lexToken size c input = .ok (kind, rest)) : rest.length ≤ input.length := by
  unfold lexToken at h
  split at h
  case h_1 =>
    split at h
    · cases h
      exact Nat.le_succ_of_le (List.dropWhile_suffix _).length_le
    · cases h
  case h_2 => exact lexStringLiteral_length h
  case h_10 =>
    split at h
    · cases h
      exact Nat.le_succ _
    · cases h
      exact Nat.le_refl _
  case h_11 =>
    split at h
    · cases h
      exact Nat.le_succ _
    · cases h
  case h_13 =>
    cases input with
    | nil =>
      cases h
      exact Nat.le_refl _
    | cons first others =>
      simp only [lexNamedHole] at h
      split at h
      · cases h
        exact Nat.le_succ_of_le (List.dropWhile_suffix _).length_le
      · cases h
        exact Nat.le_refl _
  case h_14 =>
    split at h
    · simp only [lexNumber] at h
      split at h
      · cases h
        exact (List.dropWhile_suffix _).length_le
      · cases h
    · split at h
      · simp only [lexIdent] at h
        split at h
        · cases h
        · split at h
          · cases h
            exact (List.dropWhile_suffix _).length_le
          · cases h
            exact (List.dropWhile_suffix _).length_le
      · cases h
  all_goals
    cases h
    exact Nat.le_refl _

/-- The loop of `lex` on the characters that are left. -/
def lexFrom (size : Nat) (input : List Char) : MachineResult (List TokenKind) :=
  match input with
  | [] => .ok [.eof]
  | c :: input =>
    if isWhitespace c then lexFrom size input
    else
      match _h : lexToken size c input with
      | .error error => .error error
      | .ok (kind, rest) => lexFrom size rest >>= fun tokens => .ok (kind :: tokens)
termination_by input.length
decreasing_by
  · simp
  · exact Nat.lt_succ_of_le (lexToken_length _h)

def lex (source : String) : MachineResult (List TokenKind) :=
  lexFrom (utf8Length source.toList) source.toList

end NpaCore.Frontend
