import NpaCore.Certificate.Conversion
import NpaCore.Lib.PostOrder

/-!
# Loading imported declarations

`add_referenced_imports_to_env` of `npa-cert/src/verify.rs`. The references of a
certificate are followed through the export blocks of its imports, each
declaration after those it refers to, and every declaration on the way enters the
flat environment of the kernel. The walk either acts at once or plans its actions
and replays them; which of the two runs depends on a memory budget.
-/

namespace NpaCore.Certificate

open NpaCore.Kernel (Env Allocator)
open NpaCore.PostOrder

/-! ### Finding imports and exports -/

inductive TrustMode where
  | normal
  | highTrust
  deriving DecidableEq, Repr

/-- Module and export hash are those of the entry. -/
def ImportEntry.exportMatches (entry : ImportEntry) (cert : ModuleCert) : Bool :=
  cert.module = entry.module && cert.exportHash = entry.exportHash

def ImportEntry.matchesCert (entry : ImportEntry) (mode : TrustMode) (cert : ModuleCert) : Bool :=
  entry.exportMatches cert &&
    match mode, entry.certificateHash with
    | _, some hash => cert.certificateHash = hash
    | .normal, none => true
    | .highTrust, none => false

/-- `find_import_ref` and `find_import_view`, over any list of things with a certificate. -/
def findImport {α : Type} (view : α → ModuleCert) (available : List α) (entry : ImportEntry)
    (mode : TrustMode) : CertResult α :=
  match available.find? fun candidate => entry.matchesCert mode (view candidate) with
  | some found => .ok found
  | none =>
    let moduleExportMatches := available.any fun candidate => entry.exportMatches (view candidate)
    if mode = .highTrust && !moduleExportMatches then
      .error (.importNotVerifiedInSession entry.module)
    else if entry.certificateHash.isSome && moduleExportMatches then
      .error (.importCertificateHashMismatch entry.module)
    else .error (.importHashMismatch entry.module)

/-- `resolve_import_refs`. -/
def resolveImportRefs {α : Type} (view : α → ModuleCert) (cert : ModuleCert) (available : List α)
    (mode : TrustMode) : CertResult (List α) :=
  Result.collect cert.imports fun entry => do
    Result.ensure (!(mode = .highTrust && entry.certificateHash.isNone))
      (.missingImportCertificateHash entry.module)
    findImport view available entry mode

namespace ModuleCert

variable (module : ModuleCert)

/-- `imported_export_entry_by_name`. -/
def exportEntryByName (name : String) (declInterfaceHash : Hash) : CertResult ExportEntry :=
  Result.okOr
    (module.exportBlock.find? fun entry =>
      entry.declInterfaceHash = declInterfaceHash && entry.name = name)
    (.importHashMismatch module.module)

/-- The entry of a local declaration under one of its names. -/
def exportEntryOfDecl (declIndex : Nat) (name : DeclPayload → String) : CertResult ExportEntry := do
  let decl ← Result.okOr module.declarations[declIndex]? .decodeError
  Result.okOr
    (module.exportBlock.find? fun entry =>
      entry.name = name decl.decl && entry.declInterfaceHash = decl.hashes.declInterfaceHash)
    .decodeError

def exportEntryForLocalDecl (declIndex : Nat) : CertResult ExportEntry :=
  module.exportEntryOfDecl declIndex DeclPayload.primaryName

def exportEntryForLocalGeneratedDecl (declIndex : Nat) (name : String) : CertResult ExportEntry :=
  module.exportEntryOfDecl declIndex fun _ => name

end ModuleCert

/-- `imported_export_entry_for_global_ref` with the import it is found in. -/
def importedExportEntryForGlobalRef (imports : List ModuleCert) :
    GlobalRef → CertResult (ModuleCert × ExportEntry)
  | .imported importIndex name declInterfaceHash => do
    let imported ← Result.okOr imports[importIndex]? .decodeError
    let entry ← imported.exportEntryByName name declInterfaceHash
    .ok (imported, entry)
  | _ => .error .decodeError

/-! ### The graph of imported declarations -/

/-- An export entry of an imported module. -/
structure Target where
  module : ModuleCert
  entry : ExportEntry

inductive ImportedLoadAction where
  | builtin (name : String) (declInterfaceHash : Hash)
  | declaration (target : Target)

namespace Target

variable (target : Target)

/-- The terms that become the kernel declaration of the entry. A definition that is not
    reducible has no body in its entry. -/
def terms : CertResult (List Term) :=
  match target.entry.kind with
  | .inductiveExport | .constructorExport | .recursorExport => do
    let declIndex ← target.module.sourceDeclIndexForName target.entry.name
    let decl ← Result.okOr target.module.declarations[declIndex]? .decodeError
    .ok decl.decl.terms
  | .axiomExport | .theoremExport | .defExport =>
    .ok (target.entry.ty :: target.entry.body.toList)

end Target

/-- A reference to the declaration with this index, itself or one of its generated names. -/
def GlobalRef.isSelf (declIndex : Nat) : GlobalRef → Bool
  | .local index | .localGenerated index _ => index = declIndex
  | _ => false

/-- `collect_imported_kernel_refs_for_export`: the references of an entry in canonical order.
    An inductive declaration is not asked to be loaded before itself. -/
def collectImportedKernelRefsForExport (target : Target) : CertResult (List GlobalRef) := do
  let terms ← target.terms
  let refs := sortedSet (globalRefOrderKey target.module.nameTable) (terms.flatMap Term.refs)
  match target.entry.kind with
  | .inductiveExport | .constructorExport | .recursorExport => do
    let declIndex ← target.module.sourceDeclIndexForName target.entry.name
    .ok (refs.filter fun ref => !ref.isSelf declIndex)
  | .axiomExport | .theoremExport | .defExport => .ok refs

/-- What a reference inside an imported module leads to. The imports of that module are
    looked up among those of the certificate that is verified. -/
def resolveImportedRef (imports : List ModuleCert) (module : ModuleCert) :
    GlobalRef → CertResult (Step ImportedLoadAction Target)
  | .builtin name declInterfaceHash => .ok (.leaf (.builtin name declInterfaceHash))
  | .imported importIndex name declInterfaceHash => do
    let importEntry ← Result.okOr module.imports[importIndex]? .decodeError
    let imported ← findImport id imports importEntry .normal
    let entry ← imported.exportEntryByName name declInterfaceHash
    .ok (.child ⟨imported, entry⟩)
  | .local declIndex => do
    let entry ← module.exportEntryForLocalDecl declIndex
    .ok (.child ⟨module, entry⟩)
  | .localGenerated declIndex name => do
    let entry ← module.exportEntryForLocalGeneratedDecl declIndex name
    .ok (.child ⟨module, entry⟩)

/-- What a dependency of the certificate itself leads to. -/
def resolveRootRef (imports : List ModuleCert) :
    GlobalRef → CertResult (Step ImportedLoadAction Target)
  | .builtin name declInterfaceHash => .ok (.leaf (.builtin name declInterfaceHash))
  | .imported importIndex name declInterfaceHash => do
    let (module, entry) ← importedExportEntryForGlobalRef imports
      (.imported importIndex name declInterfaceHash)
    .ok (.child ⟨module, entry⟩)
  | .local _ | .localGenerated _ _ => .ok .skip

/-- `ImportedDeclKey` of the direct loader, which leaves the export hash out. -/
def directIdentity (module : ModuleCert) : List String := [module.module, module.certificateHash]

/-- `ExactImportedModuleIdentity` of the planning loader. -/
def exactIdentity (module : ModuleCert) : List String :=
  [module.module, module.exportHash, module.certificateHash]

def loadGraph (identity : ModuleCert → List String) (imports : List ModuleCert) :
    Graph CertError Target (List String × Nat) GlobalRef ImportedLoadAction where
  key target := do
    let declIndex ← target.module.sourceDeclIndexForName target.entry.name
    .ok (identity target.module, declIndex)
  refs := collectImportedKernelRefsForExport
  resolve target := resolveImportedRef imports target.module
  finish := .declaration
  cycle target := .dependencyCycle target.entry.name

/-- The references of the certificate: the dependencies of its declarations. -/
def rootRefs (cert : ModuleCert) : List GlobalRef :=
  sortedSet (globalRefOrderKey cert.nameTable)
    (cert.declarations.flatMap fun decl => decl.dependencies.map (·.globalRef))

/-- No path without a cycle is longer than the number of imported declarations. -/
def loadDepth (imports : List ModuleCert) : Nat :=
  (imports.flatMap fun module => module.declarations).length + 1

/-! ### Acting and replaying -/

section Load

variable (alloc : Allocator)

/-- A declaration whose name is that of a builtin is left out when the name is taken. -/
def addImportedDecl (env : Env) (decl : KernelDecl) : CertResult Env :=
  if (env.decl decl.name).isNone || !isBuiltinName decl.name then addDeclToEnv alloc env decl
  else .ok env

def runLoadAction (env : Env) : ImportedLoadAction → CertResult Env
  | .builtin name declInterfaceHash => addBuiltinRefToEnv alloc env name declInterfaceHash
  | .declaration target => do
    let decl ← target.module.certificateImportExportEntryToKernelDecl target.entry
    addImportedDecl alloc env decl

/-- `PlannedImportLoader::plan_top_level`. -/
def planTopLevel (cert : ModuleCert) (imports : List ModuleCert) :
    CertResult (List ImportedLoadAction) := do
  let plan ← visitRefs (loadGraph exactIdentity imports) record (loadDepth imports)
    (resolveRootRef imports) (rootRefs cert) []
  .ok plan.acc

/-- `materialize_and_replay_planned_imports`. -/
def replayPlannedImports (env : Env) (actions : List ImportedLoadAction) : CertResult Env :=
  Result.foldEach actions env (runLoadAction alloc)

/-- `add_referenced_imports_to_env_legacy`. -/
def addReferencedImportsToEnvLegacy (env : Env) (cert : ModuleCert) (imports : List ModuleCert) :
    CertResult Env := do
  let loaded ← visitRefs (loadGraph directIdentity imports) (runLoadAction alloc)
    (loadDepth imports) (resolveRootRef imports) (rootRefs cert) env
  .ok loaded.acc

/-- `add_referenced_imports_to_env`; `admitted` is the answer of the memory budget, and a plan
    that fails is dropped. -/
def addReferencedImportsToEnv (admitted : Bool) (env : Env) (cert : ModuleCert)
    (imports : List ModuleCert) : CertResult Env :=
  if admitted then
    match planTopLevel cert imports with
    | .ok actions => replayPlannedImports alloc env actions
    | .error _ => addReferencedImportsToEnvLegacy alloc env cert imports
  else addReferencedImportsToEnvLegacy alloc env cert imports

/-- Whichever loader ran, the environment is the replay of a recorded walk. -/
theorem addReferencedImportsToEnv_eq_ok {admitted : Bool} {env next : Env} {cert : ModuleCert}
    {imports : List ModuleCert}
    (h : addReferencedImportsToEnv alloc admitted env cert imports = .ok next) :
    ∃ identity ∈ [directIdentity, exactIdentity], ∃ plan,
      visitRefs (loadGraph identity imports) record (loadDepth imports) (resolveRootRef imports)
          (rootRefs cert) [] = .ok plan ∧
        replayPlannedImports alloc env plan.acc = .ok next := by
  have legacy : addReferencedImportsToEnvLegacy alloc env cert imports = .ok next →
      ∃ identity ∈ [directIdentity, exactIdentity], ∃ plan,
        visitRefs (loadGraph identity imports) record (loadDepth imports) (resolveRootRef imports)
            (rootRefs cert) [] = .ok plan ∧
          replayPlannedImports alloc env plan.acc = .ok next := by
    intro h
    simp only [addReferencedImportsToEnvLegacy, Result.bind_eq_ok, Except.ok.injEq] at h
    obtain ⟨loaded, hwalk, rfl⟩ := h
    obtain ⟨plan, hplan, hreplay⟩ := visitRefs_record hwalk
    exact ⟨directIdentity, by simp, plan, hplan, hreplay⟩
  unfold addReferencedImportsToEnv at h
  split at h
  · split at h
    next actions hplan =>
      simp only [planTopLevel, Result.bind_eq_ok, Except.ok.injEq] at hplan
      obtain ⟨plan, hwalk, rfl⟩ := hplan
      exact ⟨exactIdentity, by simp, plan, hwalk, h⟩
    next => exact legacy h
  · exact legacy h

end Load

end NpaCore.Certificate
