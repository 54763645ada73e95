import Mathlib.Algebra.Group.Nat.Defs
import NpaCore.Lib.Codec
import NpaCore.Wire.Format

/-!
# The certificate decoder

`Decoder` of `binary.rs` and the public entry points of `lib.rs`. The state of a
decoder is the bytes it has not read yet. Reserving memory for a vector cannot fail
here, and the offsets and counts that a decoder collects for reports are left out.
-/

namespace NpaCore.Wire

open NpaCore.Kernel (UniverseConstraintRelation)

/-- `StructuralLimitKind`, as far as it concerns one certificate. -/
inductive StructuralLimitKind where
  | certificateBytes
  | imports
  | nameTableEntries
  | levelTableNodes
  | termTableNodes
  | declarations
  | exports
  | nestedVectorEntries
  | structuralDepth
  | rootExpandedNodes
  | certificateExpandedNodes
  deriving DecidableEq, Repr

/-- `HashObject`, as far as the checks of dependencies name it. -/
inductive HashObject where
  | declInterface
  deriving DecidableEq, Repr

inductive LocalImplementationDependencyErrorReason where
  | wrongReferenceKind
  | targetNotEarlier
  | targetNotOpaque
  | interfaceHashMismatch
  | certificateHashMismatch
  | missingImplementationDependency
  | surplusImplementationDependency
  deriving DecidableEq, Repr

/-- `CertError`, as far as the codec and the checks of the tables, of the order of
    declarations and of their dependencies report it. -/
inductive CertError where
  | decodeError
  | nonCanonicalEncoding (object : String)
  | unsupportedEncoding (tag : UInt8)
  | unsupportedFormat (format coreSpec : String)
  | unsupportedCoreFeature (feature : String)
  | structuralLimitExceeded (kind : StructuralLimitKind) (limit observed : Nat)
  | reservedCorePrimitive (name : Name)
  | duplicateName (name : Name)
  | unknownDependency (name : Name)
  | dependencyCycle (name : Name)
  | invalidBVar (index : UInt32)
  | hashMismatch (object : HashObject) (expected actual : Hash)
  | importHashMismatch (module : Name)
  | axiomReportMismatch (decl : Option Name)
  | invalidLocalImplementationDependency (declIndex : Nat) (globalRef : GlobalRef)
      (reason : LocalImplementationDependencyErrorReason)
  | kernel (error : Kernel.Error)
  deriving DecidableEq, Repr

abbrev CertResult (α : Type) := Except CertError α

abbrev Decoder (α : Type) := Parser UInt8 CertError α

def maxCertificateBytes : Nat := 67108864
def maxImports : Nat := 4096
def maxNameTableEntries : Nat := 1048576
def maxLevelTableNodes : Nat := 262144
def maxTermTableNodes : Nat := 4194304
def maxDeclarations : Nat := 262144
def maxExports : Nat := 1048576
def maxNestedVectorEntries : Nat := 262144

def formatName : String := "NPA-CERT-0.4.0"
def coreSpecName : String := "NPA-Core-0.4.0"

namespace Decoder

/-! ### Numbers, strings and vectors -/

def byte : Decoder UInt8 := Parser.token .decodeError

def take (len : Nat) : Decoder Bytes := Parser.take .decodeError len

/-- `tag => return Err(CertError::UnsupportedEncoding { tag })`. -/
def unsupported {α : Type} (tag : UInt8) : Decoder α := Parser.fail (.unsupportedEncoding tag)

/-- The loop of `uvar`, with the bytes read so far. The shift reaches 64 after ten turns, so
    the bound on the turns is never what ends it. -/
def uvarFrom : Nat → Nat → Nat → Bytes → Decoder Id
  | 0, _, _, _ => Parser.fail .decodeError
  | turns + 1, shift, value, read => do
    let next ← byte
    let read := read ++ [next]
    let value := (value ||| (next.toNat % 128) <<< shift) % 2 ^ 64
    if next.toNat < 128 then do
      Parser.ensure (encodeUvar (UInt64.ofNat value) = read) (.nonCanonicalEncoding "uvar")
      pure (UInt64.ofNat value)
    else if 64 ≤ shift + 7 then Parser.fail .decodeError
    else uvarFrom turns (shift + 7) value read

def uvar : Decoder Id := uvarFrom 10 0 0 []

/-- `usize`, which has 64 bits. -/
def usize : Decoder Id := uvar

def u32 : Decoder UInt32 := do
  let value ← uvar
  Parser.ensure (value.toNat < 2 ^ 32) .decodeError
  pure value.toUInt32

def ensureCountLimit (kind : StructuralLimitKind) (limit observed : Nat) : Decoder Unit :=
  Parser.ensure (observed ≤ limit) (.structuralLimitExceeded kind limit observed)

def boundedLenFor (kind : StructuralLimitKind) (limit : Nat) : Decoder Nat := do
  let len ← usize
  ensureCountLimit kind limit len.toNat
  let remaining ← Parser.remaining
  Parser.ensure (len.toNat ≤ remaining.length) .decodeError
  pure len.toNat

def boundedLen : Decoder Nat := boundedLenFor .nestedVectorEntries maxNestedVectorEntries

/-- A length and that many values. -/
def vecFor {α : Type} (kind : StructuralLimitKind) (limit : Nat) (decode : Decoder α) :
    Decoder (List α) := do
  let len ← boundedLenFor kind limit
  Parser.collectN decode len

def vec {α : Type} (decode : Decoder α) : Decoder (List α) := do
  let len ← boundedLen
  Parser.collectN decode len

def usizeVec : Decoder (List Id) := vec usize

def string : Decoder String := do
  let len ← usize
  let bytes ← take len.toNat
  match String.fromUTF8? ⟨bytes.toArray⟩ with
  | some value => pure value
  | none => Parser.fail (.nonCanonicalEncoding "string")

def hash : Decoder Hash := do
  let bytes ← take 32
  if h : bytes.length = 32 then pure ⟨bytes.toArray, by simpa using h⟩
  else Parser.fail .decodeError

/-- `option_hash`, `option_usize` and their like. -/
def option {α : Type} (decode : Decoder α) : Decoder (Option α) := do
  match ← byte with
  | 0x00 => pure none
  | 0x01 => do
    let value ← decode
    pure (some value)
  | tag => unsupported tag

/-- One component of a name. -/
def nameComponent : Decoder String := do
  let component ← string
  Parser.ensure (!component.isEmpty && !component.toList.contains '.')
    (.nonCanonicalEncoding "Name")
  pure component

def name : Decoder Name := do
  let len ← boundedLen
  Parser.ensure (len != 0) (.nonCanonicalEncoding "Name")
  let components ← Parser.collectN nameComponent len
  let name : Name := ⟨components⟩
  Parser.ensure name.isCanonical (.nonCanonicalEncoding "Name")
  pure name

/-! ### Tables -/

def header : Decoder CertHeader := do
  let format ← string
  let coreSpec ← string
  Parser.ensure (format = formatName && coreSpec = coreSpecName)
    (.unsupportedFormat format coreSpec)
  let module ← name
  pure ⟨format, coreSpec, module⟩

def importEntry : Decoder ImportEntry := do
  let module ← name
  let exportHash ← hash
  let certificateHash ← option hash
  pure ⟨module, exportHash, certificateHash⟩

def levelNode : Decoder LevelNode := do
  match ← byte with
  | 0x00 => pure .zero
  | 0x01 => do
    let level ← usize
    pure (.succ level)
  | 0x02 => do
    let lhs ← usize
    let rhs ← usize
    pure (.max lhs rhs)
  | 0x03 => do
    let lhs ← usize
    let rhs ← usize
    pure (.imax lhs rhs)
  | 0x04 => do
    let name ← usize
    pure (.param name)
  | tag => unsupported tag

def globalRef : Decoder GlobalRef := do
  match ← byte with
  | 0x03 => do
    let name ← usize
    let declInterfaceHash ← hash
    pure (.builtin name declInterfaceHash)
  | 0x00 => do
    let importIndex ← usize
    let name ← usize
    let declInterfaceHash ← hash
    pure (.imported importIndex name declInterfaceHash)
  | 0x01 => do
    let declIndex ← usize
    pure (.local declIndex)
  | 0x02 => do
    let declIndex ← usize
    let name ← usize
    pure (.localGenerated declIndex name)
  | tag => unsupported tag

def termNode : Decoder TermNode := do
  match ← byte with
  | 0x00 => do
    let level ← usize
    pure (.sort level)
  | 0x01 => do
    let index ← u32
    pure (.bvar index)
  | 0x02 => do
    let ref ← globalRef
    let levels ← usizeVec
    pure (.const ref levels)
  | 0x03 => do
    let fn ← usize
    let arg ← usize
    pure (.app fn arg)
  | 0x04 => do
    let ty ← usize
    let body ← usize
    pure (.lam ty body)
  | 0x05 => do
    let ty ← usize
    let body ← usize
    pure (.pi ty body)
  | tag => unsupported tag

/-- `term_table`, the one vector whose length is not compared with the bytes that are left. -/
def termTable : Decoder (List TermNode) := do
  let len ← usize
  ensureCountLimit .termTableNodes maxTermTableNodes len.toNat
  Parser.collectN termNode len.toNat

/-! ### Declarations -/

def relation : Decoder UniverseConstraintRelation := do
  match ← byte with
  | 0x00 => pure .le
  | 0x01 => pure .eq
  | tag => unsupported tag

def universeConstraintSpec : Decoder UniverseConstraintSpec := do
  let lhs ← usize
  let relation ← relation
  let rhs ← usize
  pure ⟨lhs, relation, rhs⟩

def universeConstraintSpecs : Decoder (List UniverseConstraintSpec) := vec universeConstraintSpec

def binderType : Decoder BinderType := do
  let ty ← usize
  pure ⟨ty⟩

def binderTypes : Decoder (List BinderType) := vec binderType

def constructorSpec : Decoder ConstructorSpec := do
  let name ← usize
  let ty ← usize
  pure ⟨name, ty⟩

def constructorSpecs : Decoder (List ConstructorSpec) := vec constructorSpec

def recursor : Decoder RecursorSpec := do
  let name ← usize
  let universeParams ← usizeVec
  let ty ← usize
  let minorStart ← usize
  let majorIndex ← usize
  pure ⟨name, universeParams, ty, ⟨minorStart, majorIndex⟩⟩

def recursorSpec : Decoder (Option RecursorSpec) := option recursor

def mutualInductive : Decoder MutualInductiveSpec := do
  let name ← usize
  let params ← binderTypes
  let indices ← binderTypes
  let sort ← usize
  let constructors ← constructorSpecs
  let recursor ← recursorSpec
  pure ⟨name, params, indices, sort, constructors, recursor⟩

def reducibility : Decoder CertReducibility := do
  match ← byte with
  | 0x00 => pure .reducible
  | 0x01 => pure .opaqueDef
  | tag => unsupported tag

def opacity : Decoder Opacity := do
  match ← byte with
  | 0x00 => pure .opaqueProof
  | tag => unsupported tag

def declPayload : Decoder DeclPayload := do
  match ← byte with
  | 0x00 => do
    let name ← usize
    let universeParams ← usizeVec
    let ty ← usize
    pure (.axiomDecl name universeParams ty)
  | 0x10 => do
    let name ← usize
    let universeParams ← usizeVec
    let universeConstraints ← universeConstraintSpecs
    let ty ← usize
    pure (.axiomConstrained name universeParams universeConstraints ty)
  | 0x01 => do
    let name ← usize
    let universeParams ← usizeVec
    let ty ← usize
    let value ← usize
    let reducibility ← reducibility
    pure (.defDecl name universeParams ty value reducibility)
  | 0x11 => do
    let name ← usize
    let universeParams ← usizeVec
    let universeConstraints ← universeConstraintSpecs
    let ty ← usize
    let value ← usize
    let reducibility ← reducibility
    pure (.defConstrained name universeParams universeConstraints ty value reducibility)
  | 0x02 => do
    let name ← usize
    let universeParams ← usizeVec
    let ty ← usize
    let proof ← usize
    let opacity ← opacity
    pure (.theoremDecl name universeParams ty proof opacity)
  | 0x12 => do
    let name ← usize
    let universeParams ← usizeVec
    let universeConstraints ← universeConstraintSpecs
    let ty ← usize
    let proof ← usize
    let opacity ← opacity
    pure (.theoremConstrained name universeParams universeConstraints ty proof opacity)
  | 0x03 => do
    let name ← usize
    let universeParams ← usizeVec
    let params ← binderTypes
    let indices ← binderTypes
    let sort ← usize
    let constructors ← constructorSpecs
    let recursor ← recursorSpec
    pure (.inductiveDecl name universeParams params indices sort constructors recursor)
  | 0x13 => do
    let name ← usize
    let universeParams ← usizeVec
    let universeConstraints ← universeConstraintSpecs
    let params ← binderTypes
    let indices ← binderTypes
    let sort ← usize
    let constructors ← constructorSpecs
    let recursor ← recursorSpec
    pure (.inductiveConstrained name universeParams universeConstraints params indices sort
      constructors recursor)
  | 0x04 => do
    let name ← usize
    let universeParams ← usizeVec
    let universeConstraints ← universeConstraintSpecs
    let inductives ← vec mutualInductive
    pure (.mutualInductiveBlock name universeParams universeConstraints inductives)
  | tag => unsupported tag

def dependencyEntry : Decoder DependencyEntry := do
  match ← byte with
  | 0x00 => do
    let ref ← globalRef
    let declInterfaceHash ← hash
    pure (.interface ref declInterfaceHash)
  | 0x01 => do
    let ref ← globalRef
    let declInterfaceHash ← hash
    let declCertificateHash ← hash
    pure (.localImplementation ref declInterfaceHash declCertificateHash)
  | tag => unsupported tag

def dependencyEntries : Decoder (List DependencyEntry) := do
  let entries ← vec dependencyEntry
  Parser.ensure (strictlyOrdered entries) (.nonCanonicalEncoding "Dependencies")
  pure entries

def axiomRef : Decoder AxiomRef := do
  let ref ← globalRef
  let name ← usize
  let declInterfaceHash ← hash
  pure ⟨ref, name, declInterfaceHash⟩

def axiomRefs : Decoder (List AxiomRef) := vec axiomRef

def declaration : Decoder DeclCert := do
  let decl ← declPayload
  let dependencies ← dependencyEntries
  let axiomDependencies ← axiomRefs
  let declInterfaceHash ← hash
  let declCertificateHash ← hash
  pure ⟨decl, dependencies, axiomDependencies, ⟨declInterfaceHash, declCertificateHash⟩⟩

/-! ### Exports, reports and modules -/

def exportKind : Decoder ExportKind := do
  match ← byte with
  | 0x00 => pure .axiomExport
  | 0x01 => pure .defExport
  | 0x02 => pure .theoremExport
  | 0x03 => pure .inductiveExport
  | 0x04 => pure .constructorExport
  | 0x05 => pure .recursorExport
  | tag => unsupported tag

def exportEntry : Decoder ExportEntry := do
  let name ← usize
  let kind ← exportKind
  let universeParams ← usizeVec
  let universeConstraints ← universeConstraintSpecs
  let ty ← usize
  let body ← option usize
  let typeHash ← hash
  let bodyHash ← option hash
  let reducibility ← option reducibility
  let opacity ← option opacity
  let declInterfaceHash ← hash
  let axiomDependencies ← axiomRefs
  pure ⟨name, kind, universeParams, universeConstraints, ty, body, typeHash, bodyHash,
    reducibility, opacity, declInterfaceHash, axiomDependencies⟩

def declAxiomReport : Decoder DeclAxiomReport := do
  let declIndex ← usize
  let directAxioms ← axiomRefs
  let transitiveAxioms ← axiomRefs
  pure ⟨declIndex, directAxioms, transitiveAxioms⟩

def moduleHashTrailerLen : Nat := 32 * 3

/-- `has_core_feature_report`, from the bytes that are left. -/
def hasCoreFeatureReport (remaining : Bytes) : Bool :=
  let tag := coreFeatureReportTag.toByteArray.data.toList
  tag.length < remaining.length - moduleHashTrailerLen &&
    remaining.head? = some (UInt8.ofNat tag.length) &&
    (remaining.drop 1).take tag.length = tag

/-- One feature of the report. -/
def coreFeature : Decoder CoreFeature := do
  let feature ← string
  match CoreFeature.fromName feature with
  | some feature => pure feature
  | none => Parser.fail (.unsupportedCoreFeature feature)

/-- `core_features`. Its check of the order compares values, of which there are none. -/
def coreFeatures : Decoder (List CoreFeature) := do
  let tag ← string
  Parser.ensure (tag = coreFeatureReportTag) (.nonCanonicalEncoding "CoreFeatureReport")
  let len ← boundedLen
  Parser.ensure (len != 0) (.nonCanonicalEncoding "CoreFeatureReport")
  Parser.collectN coreFeature len

def optionalCoreFeatures : Decoder (List CoreFeature) := do
  let remaining ← Parser.remaining
  if hasCoreFeatureReport remaining then coreFeatures else pure []

def moduleHashes : Decoder ModuleHashes := do
  let exportHash ← hash
  let axiomReportHash ← hash
  let certificateHash ← hash
  pure ⟨exportHash, axiomReportHash, certificateHash⟩

/-- `module_cert_parts_with_import_offsets`, without the offsets. -/
def moduleCertParts : Decoder ModuleCert := do
  let header ← header
  let imports ← vecFor .imports maxImports importEntry
  let nameTable ← vecFor .nameTableEntries maxNameTableEntries name
  let levelTable ← vecFor .levelTableNodes maxLevelTableNodes levelNode
  let termTable ← termTable
  let declarations ← vecFor .declarations maxDeclarations declaration
  let exportBlock ← vecFor .exports maxExports exportEntry
  let perDeclaration ← vecFor .declarations maxDeclarations declAxiomReport
  let moduleAxioms ← axiomRefs
  let coreFeatures ← optionalCoreFeatures
  let hashes ← moduleHashes
  pure ⟨header, imports, nameTable, levelTable, termTable, declarations, exportBlock,
    ⟨perDeclaration, moduleAxioms, coreFeatures⟩, hashes⟩

end Decoder

/-! ### Entry points -/

/-- `decode_module_cert`. -/
def decodeModuleCert (bytes : Bytes) : CertResult ModuleCert := do
  Result.ensure (bytes.length ≤ maxCertificateBytes)
    (.structuralLimitExceeded .certificateBytes maxCertificateBytes bytes.length)
  let (cert, rest) ← Decoder.moduleCertParts bytes
  Result.ensure rest.isEmpty .decodeError
  .ok cert

end NpaCore.Wire
