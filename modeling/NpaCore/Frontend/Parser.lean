import NpaCore.Frontend.Lexer
import NpaCore.Lib.Descent

/-!
# The parser of Machine Surface terms

Terms of `machine.rs` and the part of `parser.rs` that reads them. A parser works on
the tokens that are left.
-/

namespace NpaCore.Frontend

open NpaCore.Parser

/-! ### Terms -/

inductive MachineLevel where
  | nat (value : UInt64)
  | param (name : String)
  | succ (level : MachineLevel)
  | max (lhs rhs : MachineLevel)
  | imax (lhs rhs : MachineLevel)
  deriving DecidableEq, Repr

structure MachineName where
  parts : List String
  deriving DecidableEq, Repr

mutual

inductive MachineTerm where
  | ident (name : MachineName) (universeArgs : Option (List MachineLevel)) (explicitMode : Bool)
  | local (name : String)
  | prop
  | type (level : MachineLevel)
  | sort (level : MachineLevel)
  | app (func arg : MachineTerm)
  | lam (binders : List MachineBinder) (body : MachineTerm)
  | pi (binders : List MachineBinder) (body : MachineTerm)
  | annot (expr ty : MachineTerm)

inductive MachineBinder where
  | mk (name : String) (ty : MachineTerm)

end

/-! ### Looking ahead -/

abbrev TokenParser := Parser TokenKind MachineDiagnostic

/-- The last token is `Eof`, and no parser reads it. -/
def peekKind (input : List TokenKind) : TokenKind := input.headD .eof

def peekNextKind (input : List TokenKind) : Option TokenKind := input.tail.head?

def isAtomStart (input : List TokenKind) : Bool :=
  match peekKind input with
  | .ident _ | .at | .keyword .propKw | .keyword .typeKw | .keyword .sortKw | .lparen | .hole
  | .namedHole _ | .number _ => true
  | _ => false

def isTypeLevelStart (input : List TokenKind) : Bool :=
  match peekKind input with
  | .number _ => true
  | .keyword .succKw | .keyword .maxKw | .keyword .imaxKw => true
  | .ident _ => peekNextKind input ≠ some .dot && peekNextKind input ≠ some .lbrace
  | _ => false

def atUniverseBrace (input : List TokenKind) : Bool :=
  peekKind input = .dot && peekNextKind input = some .lbrace

/-- The name goes on after a dot that opens no list of universe arguments. -/
def atNameDot (input : List TokenKind) : Bool :=
  peekKind input = .dot && peekNextKind input ≠ some .lbrace

/-! ### Names and levels -/

def expectUnit (expected : TokenKind) (message : String) : TokenParser Unit
  | kind :: rest => if kind = expected then .ok ((), rest) else .error (.parse message)
  | [] => .error (.parse message)

def expectIdent (message : String) : TokenParser String
  | .ident name :: rest => .ok (name, rest)
  | _ => .error (.parse message)

def reservedNameComponentSpelling : TokenKind → Option String
  | .keyword .importKw => some "import"
  | .keyword .opaqueKw => some "opaque"
  | .keyword .defKw => some "def"
  | .keyword .theoremKw => some "theorem"
  | .keyword .funKw => some "fun"
  | .keyword .forallKw => some "forall"
  | .keyword .propKw => some "Prop"
  | .keyword .typeKw => some "Type"
  | .keyword .sortKw => some "Sort"
  | .keyword .succKw => some "succ"
  | .keyword .maxKw => some "max"
  | .keyword .imaxKw => some "imax"
  | .keyword .openKw => some "open"
  | .keyword .namespaceKw => some "namespace"
  | .keyword .matchKw => some "match"
  | .keyword .withKw => some "with"
  | .keyword .notationKw => some "notation"
  | .keyword .infixKw => some "infix"
  | .keyword .infixlKw => some "infixl"
  | .keyword .infixrKw => some "infixr"
  | .keyword .axiomKw => some "axiom"
  | .keyword .inductiveKw => some "inductive"
  | _ => none

def expectDottedNameComponent (message : String) : TokenParser String
  | [] => expectIdent message []
  | kind :: rest =>
    match reservedNameComponentSpelling kind with
    | some spelling => .ok (spelling, rest)
    | none => expectIdent message (kind :: rest)

def parseName : TokenParser MachineName := do
  let first ← expectIdent "expected name"
  let others ← whileAhead atNameDot do
    expectUnit .dot "expected '.'"
    expectDottedNameComponent "expected identifier after '.'"
  pure ⟨first :: others⟩

def parseLevelBody (parseLevel : TokenParser MachineLevel) : TokenParser MachineLevel
  | .number value :: rest => .ok (.nat value, rest)
  | .keyword .succKw :: rest => (do
      let level ← parseLevel
      pure (.succ level) : TokenParser MachineLevel) rest
  | .keyword .maxKw :: rest => (do
      let lhs ← parseLevel
      let rhs ← parseLevel
      pure (.max lhs rhs) : TokenParser MachineLevel) rest
  | .keyword .imaxKw :: rest => (do
      let lhs ← parseLevel
      let rhs ← parseLevel
      pure (.imax lhs rhs) : TokenParser MachineLevel) rest
  | .ident name :: rest => .ok (.param name, rest)
  | _ => .error (.parse "expected universe level")

/-- A level reads a token before each level inside it. -/
def parseLevel : TokenParser MachineLevel :=
  descend (.parse "expected universe level") parseLevelBody

def parseOptionalUniverseArgs : TokenParser (Option (List MachineLevel)) := do
  if ← ahead atUniverseBrace then do
    expectUnit .dot "expected '.'"
    expectUnit .lbrace "expected '\x7b'"
    let first ← parseLevel
    let others ← whileAhead (fun input => peekKind input = .comma) do
      expectUnit .comma "expected ','"
      parseLevel
    expectUnit .rbrace "expected '\x7d'"
    pure (some (first :: others))
  else pure none

/-! ### Terms from tokens -/

def parseRef (explicitMode : Bool) : TokenParser MachineTerm := do
  let name ← parseName
  let universeArgs ← parseOptionalUniverseArgs
  pure (.ident name universeArgs explicitMode)

def parseExplicitRef : TokenParser MachineTerm := parseRef true

def parseType : TokenParser MachineTerm := do
  expectUnit (.keyword .typeKw) "expected Type"
  if ← ahead isTypeLevelStart then do
    let level ← parseLevel
    pure (.type level)
  else pure (.type (.nat 0))

def parseSort : TokenParser MachineTerm := do
  expectUnit (.keyword .sortKw) "expected Sort"
  let level ← parseLevel
  pure (.sort level)

def holeNotAllowed : MachineDiagnostic :=
  ⟨.holeNotAllowed, "holes are not allowed in Machine Surface"⟩

section Inner

variable (parseTerm : TokenParser MachineTerm)

def parseAtom : TokenParser MachineTerm := fun input =>
  match peekKind input with
  | .ident _ => parseRef false input
  | .at => (do
      expectUnit .at "expected '@'"
      parseExplicitRef : TokenParser MachineTerm) input
  | .keyword .propKw => (do
      expectUnit (.keyword .propKw) "expected Prop"
      pure .prop : TokenParser MachineTerm) input
  | .keyword .typeKw => parseType input
  | .keyword .sortKw => parseSort input
  | .lparen => (do
      expectUnit .lparen "expected '('"
      let term ← parseTerm
      expectUnit .rparen "expected ')'"
      pure term : TokenParser MachineTerm) input
  | .hole | .namedHole _ => .error holeNotAllowed
  | .number _ =>
    .error (.unsupported "numeric term literals are not Machine Surface syntax")
  | _ => .error (.parse "expected Machine Surface term")

def parseApp : TokenParser MachineTerm := do
  let func ← parseAtom parseTerm
  let args ← whileAhead isAtomStart (parseAtom parseTerm)
  pure (args.foldl .app func)

def parseAnnotation : TokenParser MachineTerm := do
  let expr ← parseApp parseTerm
  if ← ahead (fun input => peekKind input = .colon) then do
    expectUnit .colon "expected ':'"
    let ty ← parseTerm
    pure (.annot expr ty)
  else pure expr

def parseBinder : TokenParser MachineBinder := do
  expectUnit .lparen "expected '('"
  let name ← expectIdent "expected binder name"
  let annotated ← ahead fun input => peekKind input = .colon
  Parser.ensure annotated
    ⟨.unannotatedBinder, "Machine Surface binders must have an explicit type annotation"⟩
  expectUnit .colon "expected ':'"
  let ty ← parseTerm
  expectUnit .rparen "expected ')'"
  pure (.mk name ty)

def parseBinders (message : String) : TokenParser (List MachineBinder) := do
  let parenthesized ← ahead fun input => peekKind input = .lparen
  Parser.ensure parenthesized ⟨.unannotatedBinder, message⟩
  whileAhead (fun input => peekKind input = .lparen) (parseBinder parseTerm)

def parseLam : TokenParser MachineTerm := do
  expectUnit (.keyword .funKw) "expected fun"
  let binders ← parseBinders parseTerm "lambda binders must use the form (x : A)"
  expectUnit .fatArrow "expected '=>'"
  let body ← parseTerm
  pure (.lam binders body)

def parsePi : TokenParser MachineTerm := do
  expectUnit (.keyword .forallKw) "expected forall"
  let binders ← parseBinders parseTerm "forall binders must use the form (x : A)"
  expectUnit .comma "expected ','"
  let body ← parseTerm
  pure (.pi binders body)

def parseTermBody : TokenParser MachineTerm := fun input =>
  match peekKind input with
  | .keyword .funKw => parseLam parseTerm input
  | .keyword .forallKw => parsePi parseTerm input
  | _ => parseAnnotation parseTerm input

end Inner

/-- A term reads a token before each term inside it. -/
def parseTerm : TokenParser MachineTerm :=
  descend (.parse "expected Machine Surface term") parseTermBody

def parseMachineTerm (source : String) : MachineResult MachineTerm := do
  let tokens ← lex source
  let (term, rest) ← parseTerm (tokens.filter (· ≠ .comment))
  Result.ensure (peekKind rest = .eof) (.parse "expected end of Machine Surface term")
  .ok term

end NpaCore.Frontend
