import NpaCore.Kernel.Decl

/-!
# The certificate format

The certificate values of `npa-cert/src/types.rs` with their tables, and the encoder
of `binary.rs`. An id is a `usize` and a hash has 32 bytes. The one format version
writes export constraints and tagged dependencies.
-/

namespace NpaCore.Wire

open NpaCore.Kernel (UniverseConstraintRelation isCanonicalNameComponent)

abbrev Bytes := List UInt8

/-! ### Certificate values -/

abbrev Hash := Vector UInt8 32

/-- `usize`: ids of names, levels and terms, and other numbers. -/
abbrev Id := UInt64

structure Name where
  components : List String
  deriving DecidableEq, Repr

def Name.isCanonical (name : Name) : Bool :=
  !name.components.isEmpty &&
    name.components.all fun component => isCanonicalNameComponent component.toList

structure CertHeader where
  format : String
  coreSpec : String
  module : Name
  deriving DecidableEq, Repr

structure ImportEntry where
  module : Name
  exportHash : Hash
  certificateHash : Option Hash
  deriving DecidableEq, Repr

structure ModuleHashes where
  exportHash : Hash
  axiomReportHash : Hash
  certificateHash : Hash
  deriving DecidableEq, Repr

inductive LevelNode where
  | zero
  | succ (level : Id)
  | max (lhs rhs : Id)
  | imax (lhs rhs : Id)
  | param (name : Id)
  deriving DecidableEq, Repr

inductive GlobalRef where
  | builtin (name : Id) (declInterfaceHash : Hash)
  | imported (importIndex name : Id) (declInterfaceHash : Hash)
  | local (declIndex : Id)
  | localGenerated (declIndex name : Id)
  deriving DecidableEq, Repr

inductive TermNode where
  | sort (level : Id)
  | bvar (index : UInt32)
  | const (globalRef : GlobalRef) (levels : List Id)
  | app (fn arg : Id)
  | lam (ty body : Id)
  | pi (ty body : Id)
  deriving DecidableEq, Repr

structure UniverseConstraintSpec where
  lhs : Id
  relation : UniverseConstraintRelation
  rhs : Id
  deriving DecidableEq, Repr

structure BinderType where
  ty : Id
  deriving DecidableEq, Repr

structure ConstructorSpec where
  name : Id
  ty : Id
  deriving DecidableEq, Repr

structure RecursorRulesSpec where
  minorStart : Id
  majorIndex : Id
  deriving DecidableEq, Repr

structure RecursorSpec where
  name : Id
  universeParams : List Id
  ty : Id
  rules : RecursorRulesSpec
  deriving DecidableEq, Repr

structure MutualInductiveSpec where
  name : Id
  params : List BinderType
  indices : List BinderType
  sort : Id
  constructors : List ConstructorSpec
  recursor : Option RecursorSpec
  deriving DecidableEq, Repr

inductive CertReducibility where
  | reducible
  | opaqueDef
  deriving DecidableEq, Repr

inductive Opacity where
  | opaqueProof
  deriving DecidableEq, Inhabited, Repr

inductive DeclPayload where
  | axiomDecl (name : Id) (universeParams : List Id) (ty : Id)
  | axiomConstrained (name : Id) (universeParams : List Id)
      (universeConstraints : List UniverseConstraintSpec) (ty : Id)
  | defDecl (name : Id) (universeParams : List Id) (ty value : Id)
      (reducibility : CertReducibility)
  | defConstrained (name : Id) (universeParams : List Id)
      (universeConstraints : List UniverseConstraintSpec) (ty value : Id)
      (reducibility : CertReducibility)
  | theoremDecl (name : Id) (universeParams : List Id) (ty proof : Id) (opacity : Opacity)
  | theoremConstrained (name : Id) (universeParams : List Id)
      (universeConstraints : List UniverseConstraintSpec) (ty proof : Id) (opacity : Opacity)
  | inductiveDecl (name : Id) (universeParams : List Id) (params indices : List BinderType)
      (sort : Id) (constructors : List ConstructorSpec) (recursor : Option RecursorSpec)
  | inductiveConstrained (name : Id) (universeParams : List Id)
      (universeConstraints : List UniverseConstraintSpec) (params indices : List BinderType)
      (sort : Id) (constructors : List ConstructorSpec) (recursor : Option RecursorSpec)
  | mutualInductiveBlock (name : Id) (universeParams : List Id)
      (universeConstraints : List UniverseConstraintSpec) (inductives : List MutualInductiveSpec)
  deriving DecidableEq, Repr

inductive DependencyEntry where
  | interface (globalRef : GlobalRef) (declInterfaceHash : Hash)
  | localImplementation (globalRef : GlobalRef) (declInterfaceHash declCertificateHash : Hash)
  deriving DecidableEq, Repr

structure AxiomRef where
  globalRef : GlobalRef
  name : Id
  declInterfaceHash : Hash
  deriving DecidableEq, Repr

structure DeclHashes where
  declInterfaceHash : Hash
  declCertificateHash : Hash
  deriving DecidableEq, Repr

structure DeclCert where
  decl : DeclPayload
  dependencies : List DependencyEntry
  axiomDependencies : List AxiomRef
  hashes : DeclHashes
  deriving DecidableEq, Repr

inductive ExportKind where
  | axiomExport
  | defExport
  | theoremExport
  | inductiveExport
  | constructorExport
  | recursorExport
  deriving DecidableEq, Repr

structure ExportEntry where
  name : Id
  kind : ExportKind
  universeParams : List Id
  universeConstraints : List UniverseConstraintSpec
  ty : Id
  body : Option Id
  typeHash : Hash
  bodyHash : Option Hash
  reducibility : Option CertReducibility
  opacity : Option Opacity
  declInterfaceHash : Hash
  axiomDependencies : List AxiomRef
  deriving DecidableEq, Repr

/-- `CoreFeature` has no values at present. -/
inductive CoreFeature
  deriving DecidableEq, Repr

def CoreFeature.asStr : CoreFeature → String := nofun

def CoreFeature.fromName : String → Option CoreFeature := fun _ => none

structure DeclAxiomReport where
  declIndex : Id
  directAxioms : List AxiomRef
  transitiveAxioms : List AxiomRef
  deriving DecidableEq, Repr

structure AxiomReport where
  perDeclaration : List DeclAxiomReport
  moduleAxioms : List AxiomRef
  coreFeatures : List CoreFeature
  deriving DecidableEq, Repr

/-- `ModuleCert` and its `ModuleCertParts`. -/
structure ModuleCert where
  header : CertHeader
  imports : List ImportEntry
  nameTable : List Name
  levelTable : List LevelNode
  termTable : List TermNode
  declarations : List DeclCert
  exportBlock : List ExportEntry
  axiomReport : AxiomReport
  hashes : ModuleHashes
  deriving DecidableEq, Repr

/-! ### Numbers, strings and vectors -/

/-- `encode_uvar_to` for at most `groups` bytes: seven bits a byte, least significant first,
    with the high bit set on all bytes but the last. -/
def encodeUvarGroups : Nat → Nat → Bytes
  | 0, _ => []
  | groups + 1, value =>
    if value < 128 then [UInt8.ofNat value]
    else UInt8.ofNat (value % 128 + 128) :: encodeUvarGroups groups (value / 128)

/-- A `u64` has at most ten groups of seven bits. -/
def encodeUvar (value : Id) : Bytes := encodeUvarGroups 10 value.toNat

def encodeLen {α : Type} (items : List α) : Bytes := encodeUvar (UInt64.ofNat items.length)

/-- A vector: its length, then its entries. -/
def encodeVec {α : Type} (encode : α → Bytes) (items : List α) : Bytes :=
  encodeLen items ++ items.flatMap encode

def encodeUsizeVec : List Id → Bytes := encodeVec encodeUvar

def encodeString (value : String) : Bytes :=
  encodeUvar (UInt64.ofNat value.toByteArray.size) ++ value.toByteArray.data.toList

def encodeHash (hash : Hash) : Bytes := hash.toList

/-- An optional value: `0x00`, or `0x01` and the value. -/
def encodeOption {α : Type} (encode : α → Bytes) : Option α → Bytes
  | some value => 0x01 :: encode value
  | none => [0x00]

def encodeOptionHash : Option Hash → Bytes := encodeOption encodeHash

def encodeOptionUsize : Option Id → Bytes := encodeOption encodeUvar

def encodeName (name : Name) : Bytes := encodeVec encodeString name.components

/-! ### Tables -/

def encodeHeader (header : CertHeader) : Bytes :=
  encodeString header.format ++ encodeString header.coreSpec ++ encodeName header.module

def encodeImport (entry : ImportEntry) : Bytes :=
  encodeName entry.module ++ encodeHash entry.exportHash ++ encodeOptionHash entry.certificateHash

def encodeLevelNode : LevelNode → Bytes
  | .zero => [0x00]
  | .succ level => 0x01 :: encodeUvar level
  | .max lhs rhs => 0x02 :: encodeUvar lhs ++ encodeUvar rhs
  | .imax lhs rhs => 0x03 :: encodeUvar lhs ++ encodeUvar rhs
  | .param name => 0x04 :: encodeUvar name

def encodeGlobalRef : GlobalRef → Bytes
  | .builtin name hash => 0x03 :: encodeUvar name ++ encodeHash hash
  | .imported importIndex name hash =>
    0x00 :: encodeUvar importIndex ++ encodeUvar name ++ encodeHash hash
  | .local declIndex => 0x01 :: encodeUvar declIndex
  | .localGenerated declIndex name => 0x02 :: encodeUvar declIndex ++ encodeUvar name

def encodeTermNode : TermNode → Bytes
  | .sort level => 0x00 :: encodeUvar level
  | .bvar index => 0x01 :: encodeUvar index.toUInt64
  | .const globalRef levels => 0x02 :: encodeGlobalRef globalRef ++ encodeUsizeVec levels
  | .app fn arg => 0x03 :: encodeUvar fn ++ encodeUvar arg
  | .lam ty body => 0x04 :: encodeUvar ty ++ encodeUvar body
  | .pi ty body => 0x05 :: encodeUvar ty ++ encodeUvar body

/-! ### Declarations -/

def encodeRelation : UniverseConstraintRelation → Bytes
  | .le => [0x00]
  | .eq => [0x01]

def encodeUniverseConstraintSpec (constraint : UniverseConstraintSpec) : Bytes :=
  encodeUvar constraint.lhs ++ encodeRelation constraint.relation ++ encodeUvar constraint.rhs

def encodeUniverseConstraintSpecs : List UniverseConstraintSpec → Bytes :=
  encodeVec encodeUniverseConstraintSpec

def encodeBinderTypes : List BinderType → Bytes := encodeVec fun binder => encodeUvar binder.ty

def encodeConstructorSpecs : List ConstructorSpec → Bytes :=
  encodeVec fun constructor => encodeUvar constructor.name ++ encodeUvar constructor.ty

def encodeRecursor (recursor : RecursorSpec) : Bytes :=
  encodeUvar recursor.name ++ encodeUsizeVec recursor.universeParams ++ encodeUvar recursor.ty ++
    encodeUvar recursor.rules.minorStart ++ encodeUvar recursor.rules.majorIndex

def encodeRecursorSpec : Option RecursorSpec → Bytes := encodeOption encodeRecursor

def encodeMutualInductive (spec : MutualInductiveSpec) : Bytes :=
  encodeUvar spec.name ++ encodeBinderTypes spec.params ++ encodeBinderTypes spec.indices ++
    encodeUvar spec.sort ++ encodeConstructorSpecs spec.constructors ++
    encodeRecursorSpec spec.recursor

def encodeReducibility : CertReducibility → Bytes
  | .reducible => [0x00]
  | .opaqueDef => [0x01]

def encodeOpacity : Opacity → Bytes
  | .opaqueProof => [0x00]

def encodeDeclPayload : DeclPayload → Bytes
  | .axiomDecl name universeParams ty =>
    0x00 :: encodeUvar name ++ encodeUsizeVec universeParams ++ encodeUvar ty
  | .axiomConstrained name universeParams universeConstraints ty =>
    0x10 :: encodeUvar name ++ encodeUsizeVec universeParams ++
      encodeUniverseConstraintSpecs universeConstraints ++ encodeUvar ty
  | .defDecl name universeParams ty value reducibility =>
    0x01 :: encodeUvar name ++ encodeUsizeVec universeParams ++ encodeUvar ty ++
      encodeUvar value ++ encodeReducibility reducibility
  | .defConstrained name universeParams universeConstraints ty value reducibility =>
    0x11 :: encodeUvar name ++ encodeUsizeVec universeParams ++
      encodeUniverseConstraintSpecs universeConstraints ++ encodeUvar ty ++ encodeUvar value ++
      encodeReducibility reducibility
  | .theoremDecl name universeParams ty proof opacity =>
    0x02 :: encodeUvar name ++ encodeUsizeVec universeParams ++ encodeUvar ty ++
      encodeUvar proof ++ encodeOpacity opacity
  | .theoremConstrained name universeParams universeConstraints ty proof opacity =>
    0x12 :: encodeUvar name ++ encodeUsizeVec universeParams ++
      encodeUniverseConstraintSpecs universeConstraints ++ encodeUvar ty ++ encodeUvar proof ++
      encodeOpacity opacity
  | .inductiveDecl name universeParams params indices sort constructors recursor =>
    0x03 :: encodeUvar name ++ encodeUsizeVec universeParams ++ encodeBinderTypes params ++
      encodeBinderTypes indices ++ encodeUvar sort ++ encodeConstructorSpecs constructors ++
      encodeRecursorSpec recursor
  | .inductiveConstrained name universeParams universeConstraints params indices sort constructors
      recursor =>
    0x13 :: encodeUvar name ++ encodeUsizeVec universeParams ++
      encodeUniverseConstraintSpecs universeConstraints ++ encodeBinderTypes params ++
      encodeBinderTypes indices ++ encodeUvar sort ++ encodeConstructorSpecs constructors ++
      encodeRecursorSpec recursor
  | .mutualInductiveBlock name universeParams universeConstraints inductives =>
    0x04 :: encodeUvar name ++ encodeUsizeVec universeParams ++
      encodeUniverseConstraintSpecs universeConstraints ++
      encodeVec encodeMutualInductive inductives

def encodeDependencyEntry : DependencyEntry → Bytes
  | .interface globalRef hash => 0x00 :: encodeGlobalRef globalRef ++ encodeHash hash
  | .localImplementation globalRef hash certificateHash =>
    0x01 :: encodeGlobalRef globalRef ++ encodeHash hash ++ encodeHash certificateHash

def encodeAxiomRef (ref : AxiomRef) : Bytes :=
  encodeGlobalRef ref.globalRef ++ encodeUvar ref.name ++ encodeHash ref.declInterfaceHash

def encodeAxiomRefs : List AxiomRef → Bytes := encodeVec encodeAxiomRef

def encodeDeclaration (cert : DeclCert) : Bytes :=
  encodeDeclPayload cert.decl ++ encodeVec encodeDependencyEntry cert.dependencies ++
    encodeAxiomRefs cert.axiomDependencies ++ encodeHash cert.hashes.declInterfaceHash ++
    encodeHash cert.hashes.declCertificateHash

/-! ### Exports, reports and modules -/

def encodeExportKind : ExportKind → Bytes
  | .axiomExport => [0x00]
  | .defExport => [0x01]
  | .theoremExport => [0x02]
  | .inductiveExport => [0x03]
  | .constructorExport => [0x04]
  | .recursorExport => [0x05]

def encodeExportEntry (entry : ExportEntry) : Bytes :=
  encodeUvar entry.name ++ encodeExportKind entry.kind ++ encodeUsizeVec entry.universeParams ++
    encodeUniverseConstraintSpecs entry.universeConstraints ++ encodeUvar entry.ty ++
    encodeOptionUsize entry.body ++ encodeHash entry.typeHash ++ encodeOptionHash entry.bodyHash ++
    encodeOption encodeReducibility entry.reducibility ++ encodeOption encodeOpacity entry.opacity ++
    encodeHash entry.declInterfaceHash ++ encodeAxiomRefs entry.axiomDependencies

def encodeDeclAxiomReport (report : DeclAxiomReport) : Bytes :=
  encodeUvar report.declIndex ++ encodeAxiomRefs report.directAxioms ++
    encodeAxiomRefs report.transitiveAxioms

def coreFeatureReportTag : String := "core_features"

/-- The report of core features is only written when there are any. -/
def encodeCoreFeatures (features : List CoreFeature) : Bytes :=
  if features.isEmpty then []
  else encodeString coreFeatureReportTag ++
    encodeVec (fun feature => encodeString feature.asStr) features

def encodeAxiomReport (report : AxiomReport) : Bytes :=
  encodeVec encodeDeclAxiomReport report.perDeclaration ++ encodeAxiomRefs report.moduleAxioms ++
    encodeCoreFeatures report.coreFeatures

def encodeHashes (hashes : ModuleHashes) : Bytes :=
  encodeHash hashes.exportHash ++ encodeHash hashes.axiomReportHash ++
    encodeHash hashes.certificateHash

/-- `encode_module_cert_with_format` and the certificate hash after it. -/
def encodeParts (cert : ModuleCert) : Bytes :=
  encodeHeader cert.header ++ encodeVec encodeImport cert.imports ++
    encodeVec encodeName cert.nameTable ++ encodeVec encodeLevelNode cert.levelTable ++
    encodeVec encodeTermNode cert.termTable ++ encodeVec encodeDeclaration cert.declarations ++
    encodeVec encodeExportEntry cert.exportBlock ++ encodeAxiomReport cert.axiomReport ++
    encodeHashes cert.hashes

/-! ### The order of dependencies -/

/-- `encode_order_uvar_to`, which repeats the loop of `encode_uvar_to`. -/
def encodeOrderUvar (value : Id) : Bytes := encodeUvarGroups 10 value.toNat

def globalRefOrderKey : GlobalRef → Bytes
  | .builtin name hash => 0x03 :: encodeOrderUvar name ++ hash.toList
  | .imported importIndex name hash =>
    0x00 :: encodeOrderUvar importIndex ++ encodeOrderUvar name ++ hash.toList
  | .local declIndex => 0x01 :: encodeOrderUvar declIndex
  | .localGenerated declIndex name => 0x02 :: encodeOrderUvar declIndex ++ encodeOrderUvar name

def dependencyEntryOrderKey : DependencyEntry → Bytes
  | .interface globalRef hash => 0x00 :: globalRefOrderKey globalRef ++ hash.toList
  | .localImplementation globalRef hash certificateHash =>
    0x01 :: globalRefOrderKey globalRef ++ hash.toList ++ certificateHash.toList

/-- No two neighbours with `pair[0] >= pair[1]`. -/
def strictlyOrdered (entries : List DependencyEntry) : Bool :=
  match entries with
  | first :: second :: rest =>
    (compare (dependencyEntryOrderKey first) (dependencyEntryOrderKey second)).isLT &&
      strictlyOrdered (second :: rest)
  | _ => true

end NpaCore.Wire
