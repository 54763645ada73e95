import Mathlib.Data.List.Dedup
import Mathlib.Data.List.Sort
import NpaCore.Kernel.Decl

/-!
# Module certificates

The certificates of `npa-cert/src/types.rs` as the verifier reads them. The
tables of a certificate are unfolded: a name, level or term id is the name, level
or term it stands for, which is no loss once the tables are known to be free of
duplicates and ordered. The name table itself stays, since the canonical order of
references is the order of their name ids. Names are dotted strings and hashes
hexadecimal strings.
-/

namespace NpaCore.Certificate

open NpaCore.Kernel (Reducibility RecursorRules UniverseConstraint)

abbrev Hash := String

/-! ### References and terms -/

inductive GlobalRef where
  | builtin (name : String) (declInterfaceHash : Hash)
  | imported (importIndex : Nat) (name : String) (declInterfaceHash : Hash)
  | local (declIndex : Nat)
  | localGenerated (declIndex : Nat) (name : String)
  deriving DecidableEq, Repr, Inhabited

/-- The terms of a certificate keep no display names. -/
abbrev Term := NpaCore.Expr GlobalRef String Unit

/-- The references at the constants of a term, from left to right. -/
def Term.refs : Term → List GlobalRef
  | .sort _ | .bvar _ => []
  | .const ref _ => [ref]
  | .app fn arg => Term.refs fn ++ Term.refs arg
  | .lam _ ty body | .pi _ ty body => Term.refs ty ++ Term.refs body

/-! ### Declarations -/

structure ConstructorSpec where
  name : String
  ty : Term
  deriving DecidableEq, Repr

structure RecursorSpec where
  name : String
  universeParams : List String
  ty : Term
  rules : RecursorRules
  deriving DecidableEq, Repr

/-- One family; the universe parameters and constraints are those of its declaration. -/
structure InductiveSpec where
  name : String
  params : List Term
  indices : List Term
  sort : Kernel.Level
  constructors : List ConstructorSpec
  recursor : Option RecursorSpec
  deriving DecidableEq, Repr

/-- `DeclPayload`, whose plain and constrained variants are one constructor with a list of
    constraints. -/
inductive DeclPayload where
  | axiomDecl (name : String) (universeParams : List String)
      (universeConstraints : List UniverseConstraint) (ty : Term)
  | defDecl (name : String) (universeParams : List String)
      (universeConstraints : List UniverseConstraint) (ty value : Term)
      (reducibility : Reducibility)
  | theoremDecl (name : String) (universeParams : List String)
      (universeConstraints : List UniverseConstraint) (ty proof : Term)
  | inductiveDecl (universeParams : List String) (universeConstraints : List UniverseConstraint)
      (spec : InductiveSpec)
  | mutualInductiveBlock (name : String) (universeParams : List String)
      (universeConstraints : List UniverseConstraint) (inductives : List InductiveSpec)
  deriving DecidableEq, Repr

namespace InductiveSpec

def terms (spec : InductiveSpec) : List Term :=
  spec.params ++ spec.indices ++ spec.constructors.map (·.ty) ++
    spec.recursor.toList.map (·.ty)

/-- The names a family generates besides its own. -/
def generatedNames (spec : InductiveSpec) : List String :=
  spec.constructors.map (·.name) ++ spec.recursor.toList.map (·.name)

end InductiveSpec

namespace DeclPayload

/-- `decl_primary_name`. -/
def primaryName : DeclPayload → String
  | axiomDecl name .. | defDecl name .. | theoremDecl name ..
  | mutualInductiveBlock name .. => name
  | inductiveDecl _ _ spec => spec.name

/-- `decl_term_ids`, `root_term_ids` and `collect_decl_payload_term_roots`. -/
def terms : DeclPayload → List Term
  | axiomDecl _ _ _ ty => [ty]
  | defDecl _ _ _ ty value _ => [ty, value]
  | theoremDecl _ _ _ ty proof => [ty, proof]
  | inductiveDecl _ _ spec => spec.terms
  | mutualInductiveBlock _ _ _ inductives => inductives.flatMap (·.terms)

/-- `referenced_term_ids`: the proof of a theorem does not count for its users. -/
def referencedTerms : DeclPayload → List Term
  | theoremDecl _ _ _ ty _ => [ty]
  | decl => decl.terms

def isInductive : DeclPayload → Bool
  | inductiveDecl .. | mutualInductiveBlock .. => true
  | _ => false

/-- `is_opaque_definition`. -/
def isOpaqueDefinition : DeclPayload → Bool
  | defDecl _ _ _ _ _ reducibility => reducibility = .opaqueDef
  | _ => false

/-- `decl_payload_exports_name`; a block also claims its own name. -/
def exportsName : DeclPayload → String → Bool
  | axiomDecl declName .., name | defDecl declName .., name | theoremDecl declName .., name =>
    declName = name
  | inductiveDecl _ _ spec, name => spec.name = name || spec.generatedNames.contains name
  | mutualInductiveBlock blockName _ _ inductives, name =>
    blockName = name ||
      inductives.any fun spec => spec.name = name || spec.generatedNames.contains name

/-- `local_generated_entry_exists`; in a block the families are generated too. -/
def generatesName : DeclPayload → String → Bool
  | inductiveDecl _ _ spec, name => spec.generatedNames.contains name
  | mutualInductiveBlock _ _ _ inductives, name =>
    inductives.any fun spec => spec.name = name || spec.generatedNames.contains name
  | _, _ => false

end DeclPayload

structure DeclHashes where
  declInterfaceHash : Hash
  declCertificateHash : Hash
  deriving DecidableEq, Repr

inductive DependencyEntry where
  | interface (globalRef : GlobalRef) (declInterfaceHash : Hash)
  | localImplementation (globalRef : GlobalRef) (declInterfaceHash declCertificateHash : Hash)
  deriving DecidableEq, Repr

namespace DependencyEntry

def globalRef : DependencyEntry → GlobalRef
  | interface ref _ | localImplementation ref .. => ref

def declInterfaceHash : DependencyEntry → Hash
  | interface _ hash | localImplementation _ hash _ => hash

end DependencyEntry

structure AxiomRef where
  globalRef : GlobalRef
  name : String
  declInterfaceHash : Hash
  deriving DecidableEq, Repr

structure DeclCert where
  decl : DeclPayload
  dependencies : List DependencyEntry
  axiomDependencies : List AxiomRef
  hashes : DeclHashes
  deriving DecidableEq, Repr

/-! ### Modules -/

structure ImportEntry where
  module : String
  exportHash : Hash
  certificateHash : Option Hash
  deriving DecidableEq, Repr

inductive ExportKind where
  | axiomExport
  | defExport
  | theoremExport
  | inductiveExport
  | constructorExport
  | recursorExport
  deriving DecidableEq, Repr

/-- `ExportEntry` without the structural hashes and the opacity mark, which nothing below
    reads. -/
structure ExportEntry where
  name : String
  kind : ExportKind
  universeParams : List String
  universeConstraints : List UniverseConstraint
  ty : Term
  body : Option Term
  reducibility : Option Reducibility
  declInterfaceHash : Hash
  axiomDependencies : List AxiomRef
  deriving DecidableEq, Repr

structure DeclAxiomReport where
  declIndex : Nat
  directAxioms : List AxiomRef
  transitiveAxioms : List AxiomRef
  deriving DecidableEq, Repr

/-- `AxiomReport`; its list of core features is empty, since `CoreFeature` has no values. -/
structure AxiomReport where
  perDeclaration : List DeclAxiomReport
  moduleAxioms : List AxiomRef
  deriving DecidableEq, Repr

structure ModuleCert where
  module : String
  imports : List ImportEntry
  nameTable : List String
  declarations : List DeclCert
  exportBlock : List ExportEntry
  axiomReport : AxiomReport
  exportHash : Hash
  certificateHash : Hash
  deriving DecidableEq, Repr

/-! ### Errors -/

inductive LocalImplementationDependencyErrorReason where
  | wrongReferenceKind
  | targetNotEarlier
  | targetNotOpaque
  | interfaceHashMismatch
  | certificateHashMismatch
  | missingImplementationDependency
  | surplusImplementationDependency
  deriving DecidableEq, Repr

/-- The errors of `CertError` that the functions below report; a hash mismatch is always one
    of a declaration's interface here. -/
inductive CertError where
  | decodeError
  | nonCanonicalEncoding (object : String)
  | hashMismatch (expected actual : Hash)
  | importHashMismatch (module : String)
  | missingImportCertificateHash (module : String)
  | importCertificateHashMismatch (module : String)
  | importNotVerifiedInSession (module : String)
  | duplicateName (name : String)
  | unknownDependency (name : String)
  | dependencyCycle (name : String)
  | inductiveGeneratedArtifactMismatch (name : String)
  | axiomReportMismatch (decl : Option String)
  | sorryDenied (name : String)
  | forbiddenAxiom (name : String)
  | invalidLocalImplementationDependency (declIndex : Nat) (globalRef : GlobalRef)
      (reason : LocalImplementationDependencyErrorReason)
  | kernel (error : Kernel.Error)
  deriving DecidableEq, Repr

abbrev CertResult (α : Type) := Except CertError α

/-! ### The canonical order of references -/

section Order

/-- `encode_order_uvar_to`: seven bits a byte, least significant first. A `u64` has at most
    ten groups. -/
def encodeOrderUvar : Nat → Nat → List Nat
  | 0, _ => []
  | fuel + 1, value =>
    if value < 128 then [value] else (value % 128 + 128) :: encodeOrderUvar fuel (value / 128)

variable (nameTable : List String)

def orderUvar (value : Nat) : List Nat := encodeOrderUvar 10 value

/-- The id of a name, and its bytes in an order key. -/
def nameKey (name : String) : List Nat := orderUvar (nameTable.idxOf name)

def hashKey (hash : Hash) : List Nat := hash.toList.map Char.toNat

def globalRefOrderKey : GlobalRef → List Nat
  | .builtin name hash => 3 :: nameKey nameTable name ++ hashKey hash
  | .imported importIndex name hash =>
    0 :: orderUvar importIndex ++ nameKey nameTable name ++ hashKey hash
  | .local declIndex => 1 :: orderUvar declIndex
  | .localGenerated declIndex name => 2 :: orderUvar declIndex ++ nameKey nameTable name

def axiomRefOrderKey (ref : AxiomRef) : List Nat :=
  globalRefOrderKey nameTable ref.globalRef ++ nameKey nameTable ref.name ++
    hashKey ref.declInterfaceHash

def dependencyEntryOrderKey : DependencyEntry → List Nat
  | .interface ref hash => 0 :: globalRefOrderKey nameTable ref ++ hashKey hash
  | .localImplementation ref hash certificateHash =>
    1 :: globalRefOrderKey nameTable ref ++ hashKey hash ++ hashKey certificateHash

/-- Collecting into a `BTreeSet` ordered by the key and reading it in order. -/
def sortedSet {α : Type} [DecidableEq α] (key : α → List Nat) (items : List α) : List α :=
  items.dedup.insertionSort fun x y => (compare (key x) (key y)).isLE

@[simp] theorem mem_sortedSet {α : Type} [DecidableEq α] {key : α → List Nat} {items : List α}
    {x : α} : x ∈ sortedSet key items ↔ x ∈ items := by
  rw [sortedSet, List.mem_insertionSort, List.mem_dedup]

end Order

end NpaCore.Certificate
