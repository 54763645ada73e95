import NpaCore.Frontend.Parser
import NpaCore.Wire.Format

/-!
# Canonical bytes of term sources

`term_source.rs`: the check, the encoder and the decoder of terms. Both the check and
the decoder count the nodes they may still visit; the state is what is left of the
budget. Both refuse nodes that are nested too deep: the check is told how deep it is,
the decoder how many more levels it may go down.
-/

namespace NpaCore.Frontend

open NpaCore.Wire (Bytes Hash encodeUvar encodeString)

def termSourceTag : String := "npa.frontend.machine-term-source.v2"
def maxCanonicalStringLen : Nat := 2 ^ 20
def maxCanonicalListLen : Nat := 100000
def maxCanonicalNodes : Nat := 100000
def maxCanonicalDepth : Nat := 64

/-! ### Spellings -/

def isMachineIdentifier (value : String) : Bool :=
  match value.toList with
  | [] => false
  | first :: rest => isIdentStart first && rest.all isIdentContinue

def isLevelOperator (value : String) : Bool := value ∈ ["succ", "max", "imax"]

def isReservedSpelling (value : String) : Bool :=
  isLevelOperator value ||
    value ∈ ["import", "opaque", "def", "theorem", "fun", "forall", "let", "in", "Prop", "Type",
      "Sort", "open", "namespace", "match", "with", "notation", "infix", "infixl", "infixr",
      "axiom", "inductive"]

/-! ### The check before encoding -/

section Validate

/-- A check that takes nodes from a budget and returns what is left. -/
abbrev Budgeted (α : Type) := StateT Nat MachineResult α

def refuse {α : Type} (message : String) : MachineResult α := .error (.parse message)

def ensureCanonicalDepth (depth : Nat) : MachineResult Unit :=
  Result.ensure (depth ≤ maxCanonicalDepth) (.parse "canonical term nesting is too deep")

def consumeCanonicalNode : Budgeted Unit := fun remaining =>
  match remaining with
  | 0 => refuse "canonical term is too large"
  | remaining + 1 => .ok ((), remaining)

def ensureNonEmptyCanonicalList (nonEmpty : Bool) (what : String) : MachineResult Unit :=
  Result.ensure nonEmpty (.parse s!"empty canonical {what}")

def ensureCanonicalListLen (len : Nat) (what : String) : MachineResult Unit :=
  Result.ensure (len ≤ maxCanonicalListLen) (.parse s!"canonical {what} is too large")

def ensureCanonicalStringLen (value : String) : MachineResult Unit :=
  Result.ensure (value.utf8ByteSize ≤ maxCanonicalStringLen)
    (.parse "canonical string is too large")

def validateIdentifierForCanonicalEncoding (value what : String) : MachineResult Unit := do
  ensureCanonicalStringLen value
  Result.ensure (isMachineIdentifier value && !isReservedSpelling value)
    (.parse s!"invalid canonical {what}")

def validateDottedNameComponentForCanonicalEncoding (value : String) : MachineResult Unit := do
  ensureCanonicalStringLen value
  Result.ensure (isMachineIdentifier value) (.parse "invalid canonical dotted name component")

def validateNameForCanonicalEncoding (parts : List String) : MachineResult Unit := do
  ensureNonEmptyCanonicalList (!parts.isEmpty) "name"
  ensureCanonicalListLen parts.length "name component list"
  match parts with
  | [] => .ok ()
  | head :: components => do
    validateIdentifierForCanonicalEncoding head "name head component"
    Result.forEach components validateDottedNameComponentForCanonicalEncoding

def validateLevelForCanonicalEncodingAtDepth (depth : Nat) : MachineLevel → Budgeted Unit
  | .nat _ => do
    ensureCanonicalDepth depth
    consumeCanonicalNode
  | .param name => do
    ensureCanonicalDepth depth
    consumeCanonicalNode
    validateIdentifierForCanonicalEncoding name "universe level parameter"
  | .succ level => do
    ensureCanonicalDepth depth
    consumeCanonicalNode
    validateLevelForCanonicalEncodingAtDepth (depth + 1) level
  | .max lhs rhs => do
    ensureCanonicalDepth depth
    consumeCanonicalNode
    validateLevelForCanonicalEncodingAtDepth (depth + 1) lhs
    validateLevelForCanonicalEncodingAtDepth (depth + 1) rhs
  | .imax lhs rhs => do
    ensureCanonicalDepth depth
    consumeCanonicalNode
    validateLevelForCanonicalEncodingAtDepth (depth + 1) lhs
    validateLevelForCanonicalEncodingAtDepth (depth + 1) rhs

def validateLevelsForCanonicalEncodingAtDepth (depth : Nat) : List MachineLevel → Budgeted Unit
  | [] => pure ()
  | level :: levels => do
    validateLevelForCanonicalEncodingAtDepth depth level
    validateLevelsForCanonicalEncodingAtDepth depth levels

mutual

def validateTermForCanonicalEncodingAtDepth (depth : Nat) : MachineTerm → Budgeted Unit
  | .ident name universeArgs _ => do
    ensureCanonicalDepth depth
    consumeCanonicalNode
    validateNameForCanonicalEncoding name.parts
    match universeArgs with
    | none => pure ()
    | some levels => do
      ensureNonEmptyCanonicalList (!levels.isEmpty) "explicit universe argument list"
      ensureCanonicalListLen levels.length "explicit universe argument list"
      validateLevelsForCanonicalEncodingAtDepth (depth + 1) levels
  | .local _ | .prop => do
    ensureCanonicalDepth depth
    consumeCanonicalNode
  | .type level | .sort level => do
    ensureCanonicalDepth depth
    consumeCanonicalNode
    validateLevelForCanonicalEncodingAtDepth (depth + 1) level
  | .app func arg => do
    ensureCanonicalDepth depth
    consumeCanonicalNode
    validateTermForCanonicalEncodingAtDepth (depth + 1) func
    validateTermForCanonicalEncodingAtDepth (depth + 1) arg
  | .lam binders body | .pi binders body => do
    ensureCanonicalDepth depth
    consumeCanonicalNode
    ensureNonEmptyCanonicalList (!binders.isEmpty) "binder list"
    ensureCanonicalListLen binders.length "binder list"
    validateBindersForCanonicalEncodingAtDepth (depth + 1) binders
    validateTermForCanonicalEncodingAtDepth (depth + 1) body
  | .annot expr ty => do
    ensureCanonicalDepth depth
    consumeCanonicalNode
    validateTermForCanonicalEncodingAtDepth (depth + 1) expr
    validateTermForCanonicalEncodingAtDepth (depth + 1) ty

def validateBindersForCanonicalEncodingAtDepth (depth : Nat) : List MachineBinder → Budgeted Unit
  | [] => pure ()
  | .mk name ty :: binders => do
    validateIdentifierForCanonicalEncoding name "binder name"
    validateTermForCanonicalEncodingAtDepth depth ty
    validateBindersForCanonicalEncodingAtDepth depth binders

end

def validateTermForCanonicalEncoding (term : MachineTerm) : MachineResult Unit := do
  let _ ← validateTermForCanonicalEncodingAtDepth 0 term maxCanonicalNodes
  .ok ()

end Validate

/-! ### The encoder -/

def encodeMachineLevel : MachineLevel → Bytes
  | .nat value => 0x00 :: encodeUvar value
  | .param name => 0x01 :: encodeString name
  | .succ level => 0x02 :: encodeMachineLevel level
  | .max lhs rhs => 0x03 :: encodeMachineLevel lhs ++ encodeMachineLevel rhs
  | .imax lhs rhs => 0x04 :: encodeMachineLevel lhs ++ encodeMachineLevel rhs

def encodeOptionLevels : Option (List MachineLevel) → Bytes
  | some levels =>
    0x01 :: encodeUvar (UInt64.ofNat levels.length) ++ levels.flatMap encodeMachineLevel
  | none => [0x00]

def encodeNameParts (parts : List String) : Bytes :=
  encodeUvar (UInt64.ofNat parts.length) ++ parts.flatMap encodeString

def encodeExplicitMode (explicitMode : Bool) : UInt8 := if explicitMode then 0x01 else 0x00

mutual

def encodeTerm : MachineTerm → Bytes
  | .ident name universeArgs explicitMode =>
    0x00 :: encodeNameParts name.parts ++ encodeExplicitMode explicitMode ::
      encodeOptionLevels universeArgs
  -- The source is encoded before local resolution: this case is not reached.
  | .local _ => []
  | .prop => [0x09]
  | .type level => 0x08 :: encodeMachineLevel level
  | .sort level => 0x02 :: encodeMachineLevel level
  | .app func arg => 0x03 :: encodeTerm func ++ encodeTerm arg
  | .lam binders body =>
    0x04 :: encodeUvar (UInt64.ofNat binders.length) ++ encodeBinderList binders ++ encodeTerm body
  | .pi binders body =>
    0x05 :: encodeUvar (UInt64.ofNat binders.length) ++ encodeBinderList binders ++ encodeTerm body
  | .annot expr ty => 0x07 :: encodeTerm expr ++ encodeTerm ty

/-- The binders of a list, without its length. -/
def encodeBinderList : List MachineBinder → Bytes
  | [] => []
  | .mk name ty :: binders => encodeString name ++ encodeTerm ty ++ encodeBinderList binders

end

structure MachineTermSourceCanonical where
  source : String
  canonicalBytes : Bytes
  canonicalHash : Hash

def canonicalBytesOf (term : MachineTerm) : Bytes := encodeString termSourceTag ++ encodeTerm term

/-- The hash function is SHA-256, a parameter here. -/
def canonicalizeMachineTermSource (hashBytes : Bytes → Hash) (source : String) :
    MachineResult MachineTermSourceCanonical := do
  let term ← parseMachineTerm source
  validateTermForCanonicalEncoding term
  let canonicalBytes := canonicalBytesOf term
  .ok { source, canonicalBytes, canonicalHash := hashBytes canonicalBytes }

/-! ### The decoder -/

namespace Decoder

abbrev ByteParser (α : Type) := Parser UInt8 MachineDiagnostic α

def byte : ByteParser UInt8 := Parser.token (.parse "unexpected end of canonical bytes")

def take (len : Nat) : ByteParser Bytes :=
  Parser.take (.parse "unexpected end of canonical bytes") len

/-- The loop of `uvar`, with the bytes read so far. The shift reaches 64 after ten turns. -/
def uvarFrom : Nat → Nat → Nat → Bytes → ByteParser UInt64
  | 0, _, _, _ => Parser.fail (.parse "unsigned integer is too large")
  | turns + 1, shift, value, read => do
    let next ← byte
    let read := read ++ [next]
    let value := (value ||| (next.toNat % 128) <<< shift) % 2 ^ 64
    if next.toNat < 128 then do
      Parser.ensure (encodeUvar (UInt64.ofNat value) = read)
        (.parse "non-canonical unsigned integer")
      pure (UInt64.ofNat value)
    else if 64 ≤ shift + 7 then Parser.fail (.parse "unsigned integer is too large")
    else uvarFrom turns (shift + 7) value read

def uvar : ByteParser UInt64 := uvarFrom 10 0 0 []

/-- `usize`, which has 64 bits. -/
def usize : ByteParser UInt64 := uvar

def string : ByteParser String := do
  let len ← usize
  Parser.ensure (len.toNat ≤ maxCanonicalStringLen) (.parse "canonical string is too large")
  let bytes ← take len.toNat
  match String.fromUTF8? ⟨bytes.toArray⟩ with
  | some value => pure value
  | none => Parser.fail (.parse "invalid UTF-8 string")

def identifier (what : String) : ByteParser String := do
  let value ← string
  Parser.ensure (isMachineIdentifier value && !isReservedSpelling value)
    (.parse s!"invalid canonical {what}")
  pure value

def levelParamIdentifier : ByteParser String := do
  let value ← identifier "universe level parameter"
  Parser.ensure (!isLevelOperator value) (.parse "invalid canonical universe level parameter")
  pure value

def dottedNameComponent : ByteParser String := do
  let value ← string
  Parser.ensure (isMachineIdentifier value) (.parse "invalid canonical dotted name component")
  pure value

/-- The length of a list that must not be empty and not be too long. -/
def listLen (empty what : String) : ByteParser Nat := do
  let len ← usize
  Parser.ensure (len.toNat ≠ 0) (.parse empty)
  Parser.ensure (len.toNat ≤ maxCanonicalListLen) (.parse s!"canonical {what} is too large")
  pure len.toNat

def name : ByteParser (List String) := do
  let len ← listLen "empty canonical name" "name component list"
  let head ← identifier "name head component"
  let components ← Parser.collectN dottedNameComponent (len - 1)
  pure (head :: components)

def explicitMode : ByteParser Bool := do
  match ← byte with
  | 0x00 => pure false
  | 0x01 => pure true
  | _ => Parser.fail (.parse "invalid explicit-mode byte")

/-- A decoder that takes nodes from a budget. -/
abbrev NodeParser (α : Type) := StateT Nat (Parser UInt8 MachineDiagnostic) α

def read {α : Type} (decode : ByteParser α) : NodeParser α := StateT.lift decode

def decodeError {α : Type} (message : String) : NodeParser α := read (Parser.fail (.parse message))

def consumeNode : NodeParser Unit := fun remaining =>
  match remaining with
  | 0 => Parser.fail (.parse "canonical term is too large")
  | remaining + 1 => pure ((), remaining)

def machineLevel : Nat → NodeParser MachineLevel
  | 0 => decodeError "canonical term nesting is too deep"
  | levels + 1 => do
    consumeNode
    match ← read byte with
    | 0x00 => do
      let value ← read uvar
      pure (.nat value)
    | 0x01 => do
      let name ← read levelParamIdentifier
      pure (.param name)
    | 0x02 => do
      let level ← machineLevel levels
      pure (.succ level)
    | 0x03 => do
      let lhs ← machineLevel levels
      let rhs ← machineLevel levels
      pure (.max lhs rhs)
    | 0x04 => do
      let lhs ← machineLevel levels
      let rhs ← machineLevel levels
      pure (.imax lhs rhs)
    | _ => decodeError "unknown Machine Surface level canonical tag"

def collectNodes {α : Type} (decode : NodeParser α) : Nat → NodeParser (List α)
  | 0 => pure []
  | count + 1 => do
    let first ← decode
    let others ← collectNodes decode count
    pure (first :: others)

def optionLevels (levels : Nat) : NodeParser (Option (List MachineLevel)) := do
  match ← read byte with
  | 0x00 => pure none
  | 0x01 => do
    let len ← read (listLen "empty explicit universe argument list"
      "explicit universe argument list")
    let args ← collectNodes (machineLevel levels) len
    pure (some args)
  | _ => decodeError "invalid optional level-list tag"

def binder (term : NodeParser MachineTerm) : NodeParser MachineBinder := do
  let name ← read (identifier "binder name")
  let ty ← term
  pure (.mk name ty)

def binders (term : NodeParser MachineTerm) : NodeParser (List MachineBinder) := do
  let len ← read (listLen "empty canonical binder list" "binder list")
  collectNodes (binder term) len

def term : Nat → NodeParser MachineTerm
  | 0 => decodeError "canonical term nesting is too deep"
  | levels + 1 => do
    consumeNode
    match ← read byte with
    | 0x00 => do
      let name ← read name
      let explicitMode ← read explicitMode
      let universeArgs ← optionLevels levels
      pure (.ident ⟨name⟩ universeArgs explicitMode)
    | 0x01 => decodeError "local term tag is not canonical Machine Surface source"
    | 0x02 => do
      let level ← machineLevel levels
      pure (.sort level)
    | 0x03 => do
      let func ← term levels
      let arg ← term levels
      pure (.app func arg)
    | 0x04 => do
      let binders ← binders (term levels)
      let body ← term levels
      pure (.lam binders body)
    | 0x05 => do
      let binders ← binders (term levels)
      let body ← term levels
      pure (.pi binders body)
    | 0x06 => decodeError "removed Machine Surface let term tag"
    | 0x07 => do
      let expr ← term levels
      let ty ← term levels
      pure (.annot expr ty)
    | 0x08 => do
      let level ← machineLevel levels
      pure (.type level)
    | 0x09 => pure .prop
    | _ => decodeError "unknown Machine Surface term canonical tag"

end Decoder

def decodeMachineTermSourceCanonical (canonicalBytes : Bytes) : MachineResult MachineTerm := do
  let (tag, rest) ← Decoder.string canonicalBytes
  Result.ensure (tag = termSourceTag)
    (.parse "unexpected Machine Surface term-source canonical tag")
  let ((term, _), rest) ← Decoder.term (maxCanonicalDepth + 1) maxCanonicalNodes rest
  Result.ensure rest.isEmpty
    (.parse "trailing bytes in Machine Surface term-source canonical bytes")
  .ok term

end NpaCore.Frontend
