import NpaCore.Certificate.Dependencies

/-!
# The verifier

`verify_module_cert_with_import_refs` of `npa-cert/src/verify.rs`, from a decoded
certificate on, and the trees of modules that it accepts. What depends on bytes
or only rejects is left out: the encoding, the hashes, the tables behind the
unfolded terms, the structural limits, and the comparison of stored recursors
with generated ones, which the kernel checks again in its own way.
-/

namespace NpaCore.Certificate

open NpaCore.Kernel (Env Allocator KernelExecutionOptions)

/-! ### Checks before the imports -/

/-- The order of import entries. -/
def ImportEntry.compareTo (lhs rhs : ImportEntry) : Ordering :=
  let certificateKey (entry : ImportEntry) : List Nat :=
    match entry.certificateHash with
    | none => [0]
    | some hash => 1 :: hashKey hash
  (compare (nameComponents lhs.module) (nameComponents rhs.module)).then
    ((compare (hashKey lhs.exportHash) (hashKey rhs.exportHash)).then
      (compare (certificateKey lhs) (certificateKey rhs)))

/-- The imports are strictly increasing. -/
def importsOrdered : List ImportEntry → Bool
  | first :: second :: rest => (first.compareTo second).isLT && importsOrdered (second :: rest)
  | _ => true

def verifyImportOrdering (cert : ModuleCert) : CertResult Unit :=
  Result.ensure (importsOrdered cert.imports) (.nonCanonicalEncoding "Imports")

section Exports

variable (decl : DeclCert)

/-- An entry without a body. -/
def exportEntry (name : String) (kind : ExportKind) (universeParams : List String)
    (universeConstraints : List Kernel.UniverseConstraint) (ty : Term) : ExportEntry where
  name
  kind
  universeParams
  universeConstraints
  ty
  body := none
  reducibility := none
  declInterfaceHash := decl.hashes.declInterfaceHash
  axiomDependencies := decl.axiomDependencies

/-- `inductive_export_type_term_id`. -/
def inductiveExportType (spec : InductiveSpec) : Term :=
  (spec.params ++ spec.indices).foldr (.pi ()) (.sort spec.sort)

/-- The entries of one family, its constructors and its recursor. -/
def familyExports (universeParams : List String)
    (universeConstraints : List Kernel.UniverseConstraint) (spec : InductiveSpec) :
    List ExportEntry :=
  [exportEntry decl spec.name .inductiveExport universeParams universeConstraints
      (inductiveExportType spec)] ++
    (spec.constructors.map fun constructor =>
      exportEntry decl constructor.name .constructorExport universeParams universeConstraints
        constructor.ty) ++
    spec.recursor.toList.map fun recursor =>
      exportEntry decl recursor.name .recursorExport recursor.universeParams universeConstraints
        recursor.ty

/-- The entries of one declaration; a block has none under its own name. -/
def declExports : List ExportEntry :=
  match decl.decl with
  | .axiomDecl name universeParams universeConstraints ty =>
    [exportEntry decl name .axiomExport universeParams universeConstraints ty]
  | .defDecl name universeParams universeConstraints ty value reducibility =>
    [{ exportEntry decl name .defExport universeParams universeConstraints ty with
      body := if reducibility = .reducible then some value else none
      reducibility := some reducibility }]
  | .theoremDecl name universeParams universeConstraints ty _ =>
    [exportEntry decl name .theoremExport universeParams universeConstraints ty]
  | .inductiveDecl universeParams universeConstraints spec =>
    familyExports decl universeParams universeConstraints spec
  | .mutualInductiveBlock _ universeParams universeConstraints inductives =>
    inductives.flatMap (familyExports decl universeParams universeConstraints)

end Exports

def buildExportBlock (nameTable : List String) (declarations : List DeclCert) :
    List ExportEntry :=
  (declarations.flatMap declExports).insertionSort fun x y =>
    nameTable.idxOf x.name ≤ nameTable.idxOf y.name

/-- What is checked before the imports are looked up. -/
def verifyPreImportChecks (cert : ModuleCert) : CertResult Unit := do
  verifyImportOrdering cert
  Result.ensure (cert.exportBlock = buildExportBlock cert.nameTable cert.declarations)
    (.nonCanonicalEncoding "ExportBlock")
  verifyDeclarationOrder cert

/-! ### Policies -/

structure AxiomPolicy where
  mode : TrustMode
  denySorry : Bool
  allowlistedAxioms : List String
  deriving DecidableEq, Repr

/-- `enforce_axiom_policy_for_report`. -/
def enforceAxiomPolicyForReport (policy : AxiomPolicy) (report : AxiomReport) : CertResult Unit :=
  Result.forEach report.moduleAxioms fun ref => do
    Result.ensure (!(policy.denySorry && decide ("sorry".toList <:+: ref.name.toList)))
      (.sorryDenied ref.name)
    let requireAllowlist := policy.mode = .highTrust || !policy.allowlistedAxioms.isEmpty
    Result.ensure (!(requireAllowlist && !policy.allowlistedAxioms.contains ref.name))
      (.forbiddenAxiom ref.name)

/-! ### The kernel run -/

/-- What a run of the verifier depends on besides the certificate and its imports. -/
structure VerifierRun where
  alloc : Allocator
  options : KernelExecutionOptions
  admitted : Bool
  policy : AxiomPolicy

/-- `referenced_builtins_from_cert`. -/
def referencedBuiltinsFromCert (cert : ModuleCert) : CertResult (List String) := do
  let refs := (cert.declarations.flatMap fun decl => decl.decl.terms).flatMap Term.refs
  let names ← Result.collect refs fun
    | .builtin name hash => do
      Result.ensure (builtinDeclInterfaceHash name = some hash) (.unknownDependency name)
      .ok [name]
    | _ => .ok []
  .ok names.flatten

section Kernel

variable (run : VerifierRun) (cert : ModuleCert) (imports : List ModuleCert)

/-- The environment in which the declarations of the certificate are checked. -/
def importEnv : CertResult Env := do
  let builtinRefs ← referencedBuiltinsFromCert cert
  let env ← addReferencedImportsToEnv run.alloc run.admitted
    (Env.withExecutionOptions run.options) cert imports
  addReferencedBuiltinsToEnv run.alloc env builtinRefs

/-- One declaration of the certificate. -/
def addCertDecl (env : Env) (decl : DeclCert) : CertResult Env := do
  let kernelDecl ← cert.declPayloadToKernelDecl decl.decl
  addCurrentModuleDeclToEnv run.alloc env kernelDecl

/-- `verify_decoded_module_cert_checks_with_imports_inner`, with the environment that the
    source drops at the end. -/
def verifyChecksWithImports : CertResult Env := do
  verifyDependenciesAndAxioms cert imports
  enforceAxiomPolicyForReport run.policy cert.axiomReport
  Result.forEach imports fun module => enforceAxiomPolicyForReport run.policy module.axiomReport
  let env ← importEnv run cert imports
  Result.foldEach cert.declarations env (addCertDecl run cert)

end Kernel

/-- The imports that were found and the final environment. -/
def verifyModuleCertWithImportRefs {α : Type} (view : α → ModuleCert) (run : VerifierRun)
    (cert : ModuleCert) (available : List α) : CertResult (List α × Env) := do
  verifyPreImportChecks cert
  let imports ← resolveImportRefs view cert available run.policy.mode
  let env ← verifyChecksWithImports run cert (imports.map view)
  .ok (imports, env)

/-! ### Verified modules -/

/-- A certificate with the modules its imports were resolved to when it was verified. -/
inductive Module where
  | mk (cert : ModuleCert) (imports : List Module)

namespace Module

def cert : Module → ModuleCert
  | mk cert _ => cert

def imports : Module → List Module
  | mk _ imports => imports

def importCerts (X : Module) : List ModuleCert := X.imports.map cert

end Module

/-- The module was accepted by a run of the verifier over modules that were accepted before. -/
inductive Verified : Module → Prop
  | intro {run cert available imports env} (each : ∀ N ∈ available, Verified N)
      (h : verifyModuleCertWithImportRefs Module.cert run cert available = .ok (imports, env)) :
      Verified (.mk cert imports)

end NpaCore.Certificate
