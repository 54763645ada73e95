import Mathlib.Algebra.Group.Nat.Defs
import NpaCore.Lib.Codec
import NpaCore.Wire.Format

/-!
# The decoder of the reference checker

`Decoder` of `npa-checker-ref/src/decode.rs` and its check of the order of dependencies.
The state of a decoder is the bytes it has not read yet; `size` is the length of the whole
input, from which it knows its offset. Reserving memory for a vector cannot fail here.

A value whose fields are the same in both crates has the type of `Wire`.
-/

namespace NpaCore.Reference

open NpaCore.Kernel (UniverseConstraintRelation isCanonicalNameComponent)
open NpaCore.Wire (Bytes Hash Id Name CertHeader ImportEntry ModuleHashes LevelNode GlobalRef
  TermNode UniverseConstraintSpec BinderType ConstructorSpec RecursorSpec MutualInductiveSpec
  CertReducibility Opacity DeclPayload AxiomRef ExportKind ExportEntry encodeUvar globalRefOrderKey)

/-! ### Errors -/

inductive ReferenceCertificateSection where
  | headerFormat
  | headerCoreSpec
  | headerModule
  | imports
  | nameTable
  | levelTable
  | termTable
  | declarations
  | exportBlock
  | axiomReport
  | hashes
  | importStore
  | fullCertificate
  deriving DecidableEq, Repr

/-- `ReferenceStructuralLimitKind`, as far as the decoder reports it. -/
inductive ReferenceStructuralLimitKind where
  | certificateBytes
  | imports
  | nameTableEntries
  | levelTableNodes
  | termTableNodes
  | declarations
  | exports
  | nestedVectorEntries
  deriving DecidableEq, Repr

structure ReferenceStructuralLimit where
  kind : ReferenceStructuralLimitKind
  limit : Nat
  observed : Nat
  deriving DecidableEq, Repr

/-- `ReferenceCheckReason`, as far as the decoder and the universe solver report it. -/
inductive ReferenceCheckReason where
  | unexpectedEof
  | nonCanonicalUvar
  | uvarOverflow
  | lengthOverflow
  | unknownTag (tag : UInt8)
  | invalidUtf8
  | formatMismatch
  | coreSpecMismatch
  | emptyModuleName
  | emptyModuleNameComponent
  | dottedNameComponent
  | invalidNameComponent
  | nonCanonicalOrder
  | trailingBytes
  | unsupportedCoreFeature
  | resourceLimit
  | unresolvedMetavariable
  | unknownReference
  | duplicateUniverseParam
  | duplicateUniverseConstraint
  | nonNormalizedLevel
  | unsupportedUniverseConstraint
  | unsatisfiableUniverseConstraints
  deriving DecidableEq, Repr

inductive ReferenceCheckErrorKind where
  | emptyCertificate
  | malformedCertificate
  | typeCheck
  | unsupportedCoreFeature
  deriving DecidableEq, Repr

/-- No `reference` is given here. -/
structure ReferenceCheckError where
  kind : ReferenceCheckErrorKind
  certSection : ReferenceCertificateSection
  offset : Nat
  reason : Option ReferenceCheckReason
  structuralLimit : Option ReferenceStructuralLimit
  deriving DecidableEq, Repr

namespace ReferenceCheckError

def empty : ReferenceCheckError := ⟨.emptyCertificate, .headerFormat, 0, none, none⟩

def malformed (certSection : ReferenceCertificateSection) (offset : Nat)
    (reason : ReferenceCheckReason) : ReferenceCheckError :=
  ⟨.malformedCertificate, certSection, offset, some reason, none⟩

def typeCheck (certSection : ReferenceCertificateSection) (offset : Nat)
    (reason : ReferenceCheckReason) : ReferenceCheckError :=
  ⟨.typeCheck, certSection, offset, some reason, none⟩

def unsupportedCoreFeature (offset : Nat) : ReferenceCheckError :=
  ⟨.unsupportedCoreFeature, .axiomReport, offset, some .unsupportedCoreFeature, none⟩

def ofStructuralLimit (certSection : ReferenceCertificateSection) (offset : Nat)
    (kind : ReferenceStructuralLimitKind) (limit observed : Nat) : ReferenceCheckError :=
  ⟨.malformedCertificate, certSection, offset, some .resourceLimit, some ⟨kind, limit, observed⟩⟩

end ReferenceCheckError

abbrev DecodeResult (α : Type) := Except ReferenceCheckError α

/-! ### Values that keep an offset -/

structure Located (α : Type) where
  value : α
  offset : Nat
  deriving DecidableEq, Repr

inductive DependencyEntryKind where
  | interface
  | localImplementation
  deriving DecidableEq, Repr

/-- The kind says whether there is a certificate hash. -/
structure DependencyEntry where
  globalRef : GlobalRef
  declInterfaceHash : Hash
  declCertificateHash : Option Hash
  kind : DependencyEntryKind
  kind_iff : kind = .localImplementation ↔ declCertificateHash.isSome

structure DeclHashes where
  declInterfaceHash : Hash
  declCertificateHash : Hash
  declInterfaceHashOffset : Nat
  declCertificateHashOffset : Nat
  deriving DecidableEq, Repr

structure DeclCert where
  decl : DeclPayload
  dependencies : List DependencyEntry
  axiomDependencies : List AxiomRef
  hashes : DeclHashes

structure DeclAxiomReport where
  declIndex : Id
  directAxioms : List AxiomRef
  transitiveAxioms : List AxiomRef
  offset : Nat
  deriving DecidableEq, Repr

/-- `ReferenceCoreFeature` has no values at present. -/
inductive ReferenceCoreFeature
  deriving DecidableEq, Repr

def ReferenceCoreFeature.asStr : ReferenceCoreFeature → String := nofun

def ReferenceCoreFeature.fromName : String → Option ReferenceCoreFeature := fun _ => none

structure AxiomReport where
  perDeclaration : List DeclAxiomReport
  moduleAxioms : List AxiomRef
  moduleAxiomsOffset : Nat
  coreFeatures : List ReferenceCoreFeature
  coreFeaturesOffset : Nat
  deriving DecidableEq, Repr

structure ModuleHashOffsets where
  exportHashOffset : Nat
  axiomReportHashOffset : Nat
  certificateHashOffset : Nat
  deriving DecidableEq, Repr

structure DecodedModuleCertificate where
  header : CertHeader
  imports : List (Located ImportEntry)
  nameTable : List (Located Name)
  levelTable : List (Located LevelNode)
  termTable : List (Located TermNode)
  declarations : List (Located DeclCert)
  exportBlock : List (Located ExportEntry)
  axiomReport : AxiomReport
  hashes : ModuleHashes
  hashOffsets : ModuleHashOffsets

def maxCertificateBytes : Nat := 67108864
def maxImports : Nat := 4096
def maxNameTableEntries : Nat := 1048576
def maxLevelTableNodes : Nat := 262144
def maxTermTableNodes : Nat := 4194304
def maxDeclarations : Nat := 262144
def maxExports : Nat := 1048576
def maxNestedVectorEntries : Nat := 262144

def referenceCertificateFormat : String := "NPA-CERT-0.4.0"
def referenceCoreSpec : String := "NPA-Core-0.4.0"
def coreFeatureReportTag : String := "core_features"
def moduleHashTrailerLen : Nat := 32 * 3

/-! ### Numbers, strings and vectors -/

abbrev Decoder (α : Type) := Parser UInt8 ReferenceCheckError α

namespace Decoder

section Input

variable (size : Nat)

def offset : Decoder Nat := fun input => .ok (size - input.length, input)

def malformed {α : Type} (certSection : ReferenceCertificateSection) (offset : Nat)
    (reason : ReferenceCheckReason) : Decoder α :=
  Parser.fail (.malformed certSection offset reason)

def located {α : Type} (decode : Decoder α) : Decoder (Located α) := do
  let start ← offset size
  let value ← decode
  pure ⟨value, start⟩

section Section

variable (certSection : ReferenceCertificateSection)

def byte : Decoder UInt8 := do
  let start ← offset size
  Parser.token (.malformed certSection start .unexpectedEof)

def take (len : Nat) : Decoder Bytes := do
  let start ← offset size
  Parser.ensure (start + len < 2 ^ 64) (.malformed certSection start .lengthOverflow)
  Parser.take (.malformed certSection start .unexpectedEof) len

/-- The loop of `uvar`, with the bytes read so far. The shift reaches 64 after ten turns. -/
def uvarFrom (start : Nat) : Nat → Nat → Nat → Bytes → Decoder UInt64
  | 0, _, _, _ => malformed certSection start .uvarOverflow
  | turns + 1, shift, value, read => do
    let next ← byte size certSection
    let read := read ++ [next]
    let value := (value ||| (next.toNat % 128) <<< shift) % 2 ^ 64
    if next.toNat < 128 then do
      Parser.ensure (encodeUvar (UInt64.ofNat value) = read)
        (.malformed certSection start .nonCanonicalUvar)
      pure (UInt64.ofNat value)
    else if 64 ≤ shift + 7 then malformed certSection start .uvarOverflow
    else uvarFrom start turns (shift + 7) value read

def uvar : Decoder UInt64 := do
  let start ← offset size
  uvarFrom size certSection start 10 0 0 []

/-- `usize`, which has 64 bits. -/
def usize : Decoder Id := uvar size certSection

def u32 : Decoder UInt32 := do
  let start ← offset size
  let value ← uvar size certSection
  Parser.ensure (value.toNat < 2 ^ 32) (.malformed certSection start .lengthOverflow)
  pure value.toUInt32

def boundedLenFor (kind : ReferenceStructuralLimitKind) (limit : Nat) : Decoder Nat := do
  let start ← offset size
  let len ← usize size certSection
  Parser.ensure (len.toNat ≤ limit) (.ofStructuralLimit certSection start kind limit len.toNat)
  let remaining ← Parser.remaining
  Parser.ensure (len.toNat ≤ remaining.length)
    (.malformed certSection (size - remaining.length) .unexpectedEof)
  pure len.toNat

def boundedLen : Decoder Nat :=
  boundedLenFor size certSection .nestedVectorEntries maxNestedVectorEntries

/-- A table: its length, and that many entries with their offsets. -/
def tableFor {α : Type} (kind : ReferenceStructuralLimitKind) (limit : Nat) (decode : Decoder α) :
    Decoder (List α) := do
  let len ← boundedLenFor size certSection kind limit
  Parser.collectN decode len

def vec {α : Type} (decode : Decoder α) : Decoder (List α) := do
  let len ← boundedLen size certSection
  Parser.collectN decode len

def usizeVec : Decoder (List Id) := vec size certSection (usize size certSection)

def string : Decoder String := do
  let len ← usize size certSection
  let start ← offset size
  let bytes ← take size certSection len.toNat
  match String.fromUTF8? ⟨bytes.toArray⟩ with
  | some value => pure value
  | none => malformed certSection start .invalidUtf8

def hash : Decoder Hash := do
  let start ← offset size
  let bytes ← take size certSection 32
  if h : bytes.toArray.size = 32 then pure ⟨bytes.toArray, h⟩
  else malformed certSection start .unexpectedEof

/-- `option_hash`, `option_usize` and their like. -/
def option {α : Type} (decode : Decoder α) : Decoder (Option α) := do
  let start ← offset size
  match ← byte size certSection with
  | 0x00 => pure none
  | 0x01 => do
    let value ← decode
    pure (some value)
  | tag => malformed certSection start (.unknownTag tag)

/-- `reference_name_component_is_canonical`; its characters are ASCII, so bytes and
characters are the same here. -/
def referenceNameComponentIsCanonical (component : String) : Bool :=
  isCanonicalNameComponent component.toList

/-- One turn of the loop of `name`. -/
def nameComponent : Decoder String := do
  let component ← string size certSection
  let finish ← offset size
  Parser.ensure (!component.isEmpty) (.malformed certSection finish .emptyModuleNameComponent)
  Parser.ensure (!component.toList.contains '.')
    (.malformed certSection finish .dottedNameComponent)
  Parser.ensure (referenceNameComponentIsCanonical component)
    (.malformed certSection finish .invalidNameComponent)
  pure component

/-- The checks of `ReferenceModuleName::new`. -/
def validModuleName (components : List String) : Bool :=
  !components.isEmpty && components.all (fun component => !component.isEmpty) &&
    components.all (fun component => !component.toList.contains '.') &&
    components.all referenceNameComponentIsCanonical

def name : Decoder Name := do
  let len ← boundedLen size certSection
  let start ← offset size
  Parser.ensure (len != 0) (.malformed certSection start .emptyModuleName)
  let components ← Parser.collectN (nameComponent size certSection) len
  let finish ← offset size
  Parser.ensure (validModuleName components) (.malformed certSection finish .emptyModuleName)
  pure ⟨components⟩

def globalRef : Decoder GlobalRef := do
  let start ← offset size
  match ← byte size certSection with
  | 0x03 => do
    let name ← usize size certSection
    let declInterfaceHash ← hash size certSection
    pure (.builtin name declInterfaceHash)
  | 0x00 => do
    let importIndex ← usize size certSection
    let name ← usize size certSection
    let declInterfaceHash ← hash size certSection
    pure (.imported importIndex name declInterfaceHash)
  | 0x01 => do
    let declIndex ← usize size certSection
    pure (.local declIndex)
  | 0x02 => do
    let declIndex ← usize size certSection
    let name ← usize size certSection
    pure (.localGenerated declIndex name)
  | tag => malformed certSection start (.unknownTag tag)

def axiomRef : Decoder AxiomRef := do
  let ref ← globalRef size certSection
  let name ← usize size certSection
  let declInterfaceHash ← hash size certSection
  pure ⟨ref, name, declInterfaceHash⟩

def axiomRefs : Decoder (List AxiomRef) := vec size certSection (axiomRef size certSection)

def reducibility : Decoder CertReducibility := do
  let start ← offset size
  match ← byte size certSection with
  | 0x00 => pure .reducible
  | 0x01 => pure .opaqueDef
  | tag => malformed certSection start (.unknownTag tag)

def opacity : Decoder Opacity := do
  let start ← offset size
  match ← byte size certSection with
  | 0x00 => pure .opaqueProof
  | tag => malformed certSection start (.unknownTag tag)

def relation : Decoder UniverseConstraintRelation := do
  let start ← offset size
  match ← byte size certSection with
  | 0x00 => pure .le
  | 0x01 => pure .eq
  | tag => malformed certSection start (.unknownTag tag)

def universeConstraintSpec : Decoder UniverseConstraintSpec := do
  let lhs ← usize size certSection
  let relation ← relation size certSection
  let rhs ← usize size certSection
  pure ⟨lhs, relation, rhs⟩

def universeConstraintSpecs : Decoder (List UniverseConstraintSpec) :=
  vec size certSection (universeConstraintSpec size certSection)

/-- What follows the kind of an entry. -/
def dependencyEntryOf (kind : DependencyEntryKind) : Decoder DependencyEntry := do
  let ref ← globalRef size certSection
  let declInterfaceHash ← hash size certSection
  match h : kind with
  | .interface => pure ⟨ref, declInterfaceHash, none, kind, by simp [h]⟩
  | .localImplementation => do
    let declCertificateHash ← hash size certSection
    pure ⟨ref, declInterfaceHash, some declCertificateHash, kind, by simp [h]⟩

/-- The offset of an unknown tag is counted back from the byte after it. -/
def dependencyEntry : Decoder DependencyEntry := do
  match ← byte size certSection with
  | 0x00 => dependencyEntryOf size certSection .interface
  | 0x01 => dependencyEntryOf size certSection .localImplementation
  | tag => do
    let finish ← offset size
    malformed certSection (finish - 1) (.unknownTag tag)

def dependencyEntries : Decoder (List DependencyEntry) :=
  vec size certSection (dependencyEntry size certSection)

end Section

/-! ### Tables -/

def header : Decoder CertHeader := do
  let format ← string size .headerFormat
  let formatOffset ← offset size
  let coreSpec ← string size .headerCoreSpec
  let coreSpecOffset ← offset size
  Parser.ensure (format = referenceCertificateFormat)
    (.malformed .headerFormat formatOffset .formatMismatch)
  Parser.ensure (coreSpec = referenceCoreSpec)
    (.malformed .headerCoreSpec coreSpecOffset .coreSpecMismatch)
  let module ← name size .headerModule
  pure ⟨format, coreSpec, module⟩

def importEntry : Decoder ImportEntry := do
  let module ← name size .imports
  let exportHash ← hash size .imports
  let certificateHash ← option size .imports (hash size .imports)
  pure ⟨module, exportHash, certificateHash⟩

def imports : Decoder (List (Located ImportEntry)) :=
  tableFor size .imports .imports maxImports (located size (importEntry size))

def nameTable : Decoder (List (Located Name)) :=
  tableFor size .nameTable .nameTableEntries maxNameTableEntries
    (located size (name size .nameTable))

def levelNode : Decoder LevelNode := do
  let start ← offset size
  match ← byte size .levelTable with
  | 0x00 => pure .zero
  | 0x01 => do
    let level ← usize size .levelTable
    pure (.succ level)
  | 0x02 => do
    let lhs ← usize size .levelTable
    let rhs ← usize size .levelTable
    pure (.max lhs rhs)
  | 0x03 => do
    let lhs ← usize size .levelTable
    let rhs ← usize size .levelTable
    pure (.imax lhs rhs)
  | 0x04 => do
    let name ← usize size .levelTable
    pure (.param name)
  | tag => malformed .levelTable start (.unknownTag tag)

def levelTable : Decoder (List (Located LevelNode)) :=
  tableFor size .levelTable .levelTableNodes maxLevelTableNodes (located size (levelNode size))

def termNode : Decoder TermNode := do
  let start ← offset size
  match ← byte size .termTable with
  | 0x00 => do
    let level ← usize size .termTable
    pure (.sort level)
  | 0x01 => do
    let index ← u32 size .termTable
    pure (.bvar index)
  | 0x02 => do
    let ref ← globalRef size .termTable
    let levels ← usizeVec size .termTable
    pure (.const ref levels)
  | 0x03 => do
    let fn ← usize size .termTable
    let arg ← usize size .termTable
    pure (.app fn arg)
  | 0x04 => do
    let ty ← usize size .termTable
    let body ← usize size .termTable
    pure (.lam ty body)
  | 0x05 => do
    let ty ← usize size .termTable
    let body ← usize size .termTable
    pure (.pi ty body)
  | tag => malformed .termTable start (.unknownTag tag)

def termTable : Decoder (List (Located TermNode)) :=
  tableFor size .termTable .termTableNodes maxTermTableNodes (located size (termNode size))

/-! ### Declarations -/

def binderType : Decoder BinderType := do
  let ty ← usize size .declarations
  pure ⟨ty⟩

def binderTypes : Decoder (List BinderType) := vec size .declarations (binderType size)

def constructorSpec : Decoder ConstructorSpec := do
  let name ← usize size .declarations
  let ty ← usize size .declarations
  pure ⟨name, ty⟩

def constructorSpecs : Decoder (List ConstructorSpec) :=
  vec size .declarations (constructorSpec size)

def recursor : Decoder RecursorSpec := do
  let name ← usize size .declarations
  let universeParams ← usizeVec size .declarations
  let ty ← usize size .declarations
  let minorStart ← usize size .declarations
  let majorIndex ← usize size .declarations
  pure ⟨name, universeParams, ty, ⟨minorStart, majorIndex⟩⟩

def recursorSpec : Decoder (Option RecursorSpec) := option size .declarations (recursor size)

def mutualInductive : Decoder MutualInductiveSpec := do
  let name ← usize size .declarations
  let params ← binderTypes size
  let indices ← binderTypes size
  let sort ← usize size .declarations
  let constructors ← constructorSpecs size
  let recursor ← recursorSpec size
  pure ⟨name, params, indices, sort, constructors, recursor⟩

/-- The branches of the two inductive declarations write `constructor_specs` and
`recursor_spec` out. -/
def declPayload : Decoder DeclPayload := do
  let start ← offset size
  match ← byte size .declarations with
  | 0x00 => do
    let name ← usize size .declarations
    let universeParams ← usizeVec size .declarations
    let ty ← usize size .declarations
    pure (.axiomDecl name universeParams ty)
  | 0x10 => do
    let name ← usize size .declarations
    let universeParams ← usizeVec size .declarations
    let universeConstraints ← universeConstraintSpecs size .declarations
    let ty ← usize size .declarations
    pure (.axiomConstrained name universeParams universeConstraints ty)
  | 0x01 => do
    let name ← usize size .declarations
    let universeParams ← usizeVec size .declarations
    let ty ← usize size .declarations
    let value ← usize size .declarations
    let reducibility ← reducibility size .declarations
    pure (.defDecl name universeParams ty value reducibility)
  | 0x11 => do
    let name ← usize size .declarations
    let universeParams ← usizeVec size .declarations
    let universeConstraints ← universeConstraintSpecs size .declarations
    let ty ← usize size .declarations
    let value ← usize size .declarations
    let reducibility ← reducibility size .declarations
    pure (.defConstrained name universeParams universeConstraints ty value reducibility)
  | 0x02 => do
    let name ← usize size .declarations
    let universeParams ← usizeVec size .declarations
    let ty ← usize size .declarations
    let proof ← usize size .declarations
    let opacity ← opacity size .declarations
    pure (.theoremDecl name universeParams ty proof opacity)
  | 0x12 => do
    let name ← usize size .declarations
    let universeParams ← usizeVec size .declarations
    let universeConstraints ← universeConstraintSpecs size .declarations
    let ty ← usize size .declarations
    let proof ← usize size .declarations
    let opacity ← opacity size .declarations
    pure (.theoremConstrained name universeParams universeConstraints ty proof opacity)
  | 0x03 => do
    let name ← usize size .declarations
    let universeParams ← usizeVec size .declarations
    let params ← binderTypes size
    let indices ← binderTypes size
    let sort ← usize size .declarations
    let constructors ← constructorSpecs size
    let recursor ← recursorSpec size
    pure (.inductiveDecl name universeParams params indices sort constructors recursor)
  | 0x13 => do
    let name ← usize size .declarations
    let universeParams ← usizeVec size .declarations
    let universeConstraints ← universeConstraintSpecs size .declarations
    let params ← binderTypes size
    let indices ← binderTypes size
    let sort ← usize size .declarations
    let constructors ← constructorSpecs size
    let recursor ← recursorSpec size
    pure (.inductiveConstrained name universeParams universeConstraints params indices sort
      constructors recursor)
  | 0x04 => do
    let name ← usize size .declarations
    let universeParams ← usizeVec size .declarations
    let universeConstraints ← universeConstraintSpecs size .declarations
    let inductives ← vec size .declarations (mutualInductive size)
    pure (.mutualInductiveBlock name universeParams universeConstraints inductives)
  | tag => malformed .declarations start (.unknownTag tag)

def declaration : Decoder DeclCert := do
  let decl ← declPayload size
  let dependencies ← dependencyEntries size .declarations
  let axiomDependencies ← axiomRefs size .declarations
  let declInterfaceHashOffset ← offset size
  let declInterfaceHash ← hash size .declarations
  let declCertificateHashOffset ← offset size
  let declCertificateHash ← hash size .declarations
  pure ⟨decl, dependencies, axiomDependencies,
    ⟨declInterfaceHash, declCertificateHash, declInterfaceHashOffset, declCertificateHashOffset⟩⟩

def declarations : Decoder (List (Located DeclCert)) :=
  tableFor size .declarations .declarations maxDeclarations (located size (declaration size))

/-! ### Exports, reports and modules -/

def exportKind : Decoder ExportKind := do
  let start ← offset size
  match ← byte size .exportBlock with
  | 0x00 => pure .axiomExport
  | 0x01 => pure .defExport
  | 0x02 => pure .theoremExport
  | 0x03 => pure .inductiveExport
  | 0x04 => pure .constructorExport
  | 0x05 => pure .recursorExport
  | tag => malformed .exportBlock start (.unknownTag tag)

def exportEntry : Decoder ExportEntry := do
  let name ← usize size .exportBlock
  let kind ← exportKind size
  let universeParams ← usizeVec size .exportBlock
  let universeConstraints ← universeConstraintSpecs size .exportBlock
  let ty ← usize size .exportBlock
  let body ← option size .exportBlock (usize size .exportBlock)
  let typeHash ← hash size .exportBlock
  let bodyHash ← option size .exportBlock (hash size .exportBlock)
  let reducibility ← option size .exportBlock (reducibility size .exportBlock)
  let opacity ← option size .exportBlock (opacity size .exportBlock)
  let declInterfaceHash ← hash size .exportBlock
  let axiomDependencies ← axiomRefs size .exportBlock
  pure ⟨name, kind, universeParams, universeConstraints, ty, body, typeHash, bodyHash,
    reducibility, opacity, declInterfaceHash, axiomDependencies⟩

def exportBlock : Decoder (List (Located ExportEntry)) :=
  tableFor size .exportBlock .exports maxExports (located size (exportEntry size))

def declAxiomReport : Decoder DeclAxiomReport := do
  let start ← offset size
  let declIndex ← usize size .axiomReport
  let directAxioms ← axiomRefs size .axiomReport
  let transitiveAxioms ← axiomRefs size .axiomReport
  pure ⟨declIndex, directAxioms, transitiveAxioms, start⟩

def axiomReport : Decoder AxiomReport := do
  let perDeclaration ← tableFor size .axiomReport .declarations maxDeclarations
    (declAxiomReport size)
  let moduleAxiomsOffset ← offset size
  let moduleAxioms ← axiomRefs size .axiomReport
  pure ⟨perDeclaration, moduleAxioms, moduleAxiomsOffset, [], moduleAxiomsOffset⟩

/-- `has_core_feature_report`, from the bytes that are left. -/
def hasCoreFeatureReport (remaining : Bytes) : Bool :=
  let tag := coreFeatureReportTag.toByteArray.data.toList
  tag.length < remaining.length - moduleHashTrailerLen &&
    remaining.head? = some (UInt8.ofNat tag.length) &&
    (remaining.drop 1).take tag.length = tag

/-- One feature of the report that begins at an offset. -/
def coreFeature (start : Nat) : Decoder ReferenceCoreFeature := do
  let feature ← string size .axiomReport
  match ReferenceCoreFeature.fromName feature with
  | some feature => pure feature
  | none => Parser.fail (.unsupportedCoreFeature start)

/-- `core_features`. Its check of the order compares values, of which there are none. -/
def coreFeatures : Decoder (List ReferenceCoreFeature) := do
  let start ← offset size
  let tag ← string size .axiomReport
  Parser.ensure (tag = coreFeatureReportTag) (.malformed .axiomReport start .nonCanonicalOrder)
  let len ← boundedLen size .axiomReport
  Parser.ensure (len != 0) (.malformed .axiomReport start .nonCanonicalOrder)
  Parser.collectN (coreFeature size start) len

/-- The report of axioms with the features after it, if there are any. -/
def axiomReportWithCoreFeatures : Decoder AxiomReport := do
  let report ← axiomReport size
  let remaining ← Parser.remaining
  if hasCoreFeatureReport remaining then do
    let start ← offset size
    let features ← coreFeatures size
    pure { report with coreFeatures := features, coreFeaturesOffset := start }
  else pure report

def moduleCertificate : Decoder DecodedModuleCertificate := do
  let header ← header size
  Parser.ensure (header.format = referenceCertificateFormat && header.coreSpec = referenceCoreSpec)
    (.malformed .headerFormat 0 .formatMismatch)
  let imports ← imports size
  let nameTable ← nameTable size
  let levelTable ← levelTable size
  let termTable ← termTable size
  let declarations ← declarations size
  let exportBlock ← exportBlock size
  let axiomReport ← axiomReportWithCoreFeatures size
  let exportHashOffset ← offset size
  let exportHash ← hash size .hashes
  let axiomReportHashOffset ← offset size
  let axiomReportHash ← hash size .hashes
  let certificateHashOffset ← offset size
  let certificateHash ← hash size .hashes
  pure ⟨header, imports, nameTable, levelTable, termTable, declarations, exportBlock, axiomReport,
    ⟨exportHash, axiomReportHash, certificateHash⟩,
    ⟨exportHashOffset, axiomReportHashOffset, certificateHashOffset⟩⟩

end Input

end Decoder

/-! ### Entry point and the order of dependencies -/

/-- The part of `decode_module_certificate` that reads the bytes. -/
def decodeModuleCertificate (bytes : Bytes) : DecodeResult DecodedModuleCertificate := do
  Result.ensure (bytes.length ≤ maxCertificateBytes)
    (.ofStructuralLimit .fullCertificate 0 .certificateBytes maxCertificateBytes bytes.length)
  Result.ensure (!bytes.isEmpty) .empty
  let (cert, rest) ← Decoder.moduleCertificate bytes.length bytes
  Result.ensure rest.isEmpty
    (.malformed .fullCertificate (bytes.length - rest.length) .trailingBytes)
  .ok cert

def dependencyEntryOrderKey (entry : DependencyEntry) : Bytes :=
  (match entry.kind with
    | .interface => 0x00
    | .localImplementation => 0x01) ::
    (globalRefOrderKey entry.globalRef ++ entry.declInterfaceHash.toList ++
      match entry.declCertificateHash with
      | some hash => hash.toList
      | none => [])

/-- `ensure_strict_order`: of each pair of neighbours the first is smaller. -/
def strictOrder {α : Type} (key : α → Bytes) : List α → Bool
  | first :: second :: rest =>
    (compare (key first) (key second)).isLT && strictOrder key (second :: rest)
  | _ => true

/-- The part of `validate_vector_orders` about dependencies. -/
def validateDependencyOrders (cert : DecodedModuleCertificate) : DecodeResult Unit :=
  Result.forEach cert.declarations fun located =>
    Result.ensure (strictOrder dependencyEntryOrderKey located.value.dependencies)
      (.malformed .declarations located.offset .nonCanonicalOrder)

end NpaCore.Reference
