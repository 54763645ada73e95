import Mathlib.Data.List.Sort
import Mathlib.Data.String.Basic
import NpaCore.Package.Manifest

/-!
# Package locks

The lock of `npa-package/src/lock.rs`, its own validation, its import graph, and the
comparison of a lock with a validated manifest.
-/

namespace NpaCore.Package

open NpaCore.Wire (Name)

/-! ### Values -/

structure PackageLockManifestReference where
  path : PackagePath
  fileHash : PackageHash
  deriving DecidableEq, Repr

inductive PackageLockEntryOrigin where
  | local
  | external
  deriving DecidableEq, Repr

def PackageLockEntryOrigin.asStr : PackageLockEntryOrigin → String
  | .local => "local"
  | .external => "external"

structure PackageLockImport where
  module : Name
  exportHash : PackageHash
  certificateHash : PackageHash
  deriving DecidableEq, Repr

structure PackageLockEntry where
  module : Name
  origin : PackageLockEntryOrigin
  certificate : PackagePath
  certificateFileHash : PackageHash
  exportHash : PackageHash
  axiomReportHash : PackageHash
  certificateHash : PackageHash
  imports : List PackageLockImport
  package : Option PackageId
  version : Option PackageVersion
  deriving DecidableEq, Repr

structure PackageLockManifest where
  schema : String
  package : PackageId
  version : PackageVersion
  manifest : PackageLockManifestReference
  entries : List PackageLockEntry
  deriving DecidableEq, Repr

structure PackageLockResolvedImport where
  module : Name
  entryIndex : Nat
  exportHash : PackageHash
  certificateHash : PackageHash
  deriving DecidableEq, Repr

structure PackageLockGraph where
  resolvedEntryImports : List (List PackageLockResolvedImport)
  topologicalOrder : List Name
  deriving DecidableEq, Repr

/-! ### Errors -/

inductive PackageLockErrorKind where
  | lockSchema
  | domain
  | duplicate
  | path
  | certificateIdentity
  | graph
  deriving DecidableEq, Repr

inductive PackageLockErrorReason where
  | lockSchemaInvalid
  | invalidPackageId
  | invalidVersion
  | invalidModuleName
  | invalidPath
  | duplicateLockEntry
  | duplicateCertificatePath
  | duplicateImport
  | externalFieldRequired
  | localFieldForbidden
  | certificateFileHashMismatch
  | exportHashMismatch
  | axiomReportHashMismatch
  | certificateHashMismatch
  | lockEntryMissing
  | lockEntryOriginMismatch
  | certificateImportMissing
  | lockImportMissing
  | lockImportExportHashMismatch
  | lockImportCertificateHashMismatch
  | externalImportDependsOnLocal
  | lockImportCycle
  deriving DecidableEq, Repr

structure PackageLockError where
  kind : PackageLockErrorKind
  path : String
  module : Option String
  field : Option String
  reasonCode : PackageLockErrorReason
  expectedValue : Option String
  actualValue : Option String
  deriving DecidableEq, Repr

abbrev PackageLockResult := Except PackageLockError

namespace PackageLockError

def unsupportedSchema (path field expected actual : String) : PackageLockError :=
  ⟨.lockSchema, path, none, some field, .lockSchemaInvalid, some expected, some actual⟩

def invalidPackageId (path actual : String) : PackageLockError :=
  ⟨.domain, path, none, none, .invalidPackageId, some "lowercase ASCII package id", some actual⟩

def invalidVersion (path actual : String) : PackageLockError :=
  ⟨.domain, path, none, none, .invalidVersion, some "MAJOR.MINOR.PATCH without leading zeroes",
    some actual⟩

def invalidModuleName (path actual : String) : PackageLockError :=
  ⟨.domain, path, none, none, .invalidModuleName, some "canonical dotted name", some actual⟩

def invalidPath (path actual : String) : PackageLockError :=
  ⟨.path, path, none, none, .invalidPath, some "lexical package-relative path", some actual⟩

def duplicate (path field : String) (reasonCode : PackageLockErrorReason) (actual : String) :
    PackageLockError :=
  ⟨.duplicate, path, none, some field, reasonCode, some "unique value", some actual⟩

def duplicateLockEntry (path actual : String) : PackageLockError :=
  duplicate path "module" .duplicateLockEntry actual

def duplicateCertificatePath (path actual : String) : PackageLockError :=
  duplicate path "certificate" .duplicateCertificatePath actual

def duplicateImport (path actual : String) : PackageLockError :=
  duplicate path "module" .duplicateImport actual

def externalFieldRequired (path field : String) : PackageLockError :=
  ⟨.lockSchema, path, none, some field, .externalFieldRequired,
    some "present for origin = external", none⟩

def localFieldForbidden (path field actual : String) : PackageLockError :=
  ⟨.lockSchema, path, none, some field, .localFieldForbidden,
    some "absent for origin = local", some actual⟩

def identityMismatch (path field : String) (reasonCode : PackageLockErrorReason)
    (expected actual : String) : PackageLockError :=
  ⟨.certificateIdentity, path, none, some field, reasonCode, some expected, some actual⟩

def certificateFileHashMismatch (path field expected actual : String) : PackageLockError :=
  identityMismatch path field .certificateFileHashMismatch expected actual

def exportHashMismatch (path field expected actual : String) : PackageLockError :=
  identityMismatch path field .exportHashMismatch expected actual

def axiomReportHashMismatch (path field expected actual : String) : PackageLockError :=
  identityMismatch path field .axiomReportHashMismatch expected actual

def certificateHashMismatch (path field expected actual : String) : PackageLockError :=
  identityMismatch path field .certificateHashMismatch expected actual

def lockEntryMissing (path actual : String) : PackageLockError :=
  ⟨.graph, path, none, some "module", .lockEntryMissing, some "package lock entry", some actual⟩

def lockEntryOriginMismatch (path expected actual : String) : PackageLockError :=
  ⟨.graph, path, none, some "origin", .lockEntryOriginMismatch, some expected, some actual⟩

def lockEntryIdentityMissing (path field expected actual : String) : PackageLockError :=
  ⟨.graph, path, none, some field, .lockEntryMissing, some expected, some actual⟩

def certificateImportMissing (path expected : String) : PackageLockError :=
  ⟨.graph, path, none, some "module", .certificateImportMissing, some expected, none⟩

def lockImportMissing (path actual : String) : PackageLockError :=
  ⟨.graph, path, none, some "module", .lockImportMissing,
    some "local or external package-lock entry", some actual⟩

def lockImportExportHashMismatch (path expected actual : String) : PackageLockError :=
  ⟨.graph, path, none, some "export_hash", .lockImportExportHashMismatch, some expected,
    some actual⟩

def lockImportCertificateHashMismatch (path expected actual : String) : PackageLockError :=
  ⟨.graph, path, none, some "certificate_hash", .lockImportCertificateHashMismatch,
    some expected, some actual⟩

def externalImportDependsOnLocal (path actual : String) : PackageLockError :=
  ⟨.graph, path, none, some "module", .externalImportDependsOnLocal,
    some "external package-lock entry", some actual⟩

def lockImportCycle (path actual : String) : PackageLockError :=
  ⟨.graph, path, none, some "imports", .lockImportCycle,
    some "acyclic package-lock import graph", some actual⟩

def withModule (error : PackageLockError) (module : String) : PackageLockError :=
  { error with module := some module }

end PackageLockError

/-- `.map_err(|error| error.with_module(owner))`. -/
def inModule {α : Type} (owner : Name) (result : PackageLockResult α) : PackageLockResult α :=
  result.mapError (·.withModule (asDotted owner))

/-! ### Validation of a lock by itself -/

def packageLockSchema : String := "npa.package.lock.v0.1"

def validateLockModuleName (name : Name) (path : String) : PackageLockResult Unit :=
  Result.ensure name.isCanonical (.invalidModuleName path (asDotted name))

def validateLockPackageId (id : PackageId) (path : String) : PackageLockResult Unit :=
  (validatePackageId id path).mapError fun _ => .invalidPackageId path id.value

def validateLockPackageVersion (version : PackageVersion) (path : String) :
    PackageLockResult Unit :=
  (validatePackageVersion version path).mapError fun _ => .invalidVersion path version.value

def validateLockPath (path : PackagePath) (errorPath : String) : PackageLockResult Unit :=
  (validatePackagePath path errorPath).mapError fun _ => .invalidPath errorPath path.value

def validateLockImports (imports : List PackageLockImport) (entryPath : String) :
    PackageLockResult Unit :=
  Result.foldEach imports.zipIdx ([] : List Name) (fun modules (entry, importIndex) => do
    let importPath := s!"{entryPath}.imports[{importIndex}]"
    validateLockModuleName entry.module s!"{importPath}.module"
    Result.ensure (decide (entry.module ∉ modules))
      (.duplicateImport s!"{importPath}.module" (asDotted entry.module))
    .ok (entry.module :: modules)) >>= fun _ => .ok ()

def validateLockEntryOrigin (entryPath : String) (entry : PackageLockEntry) :
    PackageLockResult Unit :=
  match entry.origin with
  | .local => do
    ifSome entry.package fun package =>
      .error (.localFieldForbidden s!"{entryPath}.package" "package" package.value)
    ifSome entry.version fun version =>
      .error (.localFieldForbidden s!"{entryPath}.version" "version" version.value)
  | .external => do
    let package ← Result.okOr entry.package
      (.externalFieldRequired s!"{entryPath}.package" "package")
    let version ← Result.okOr entry.version
      (.externalFieldRequired s!"{entryPath}.version" "version")
    validateLockPackageId package s!"{entryPath}.package"
    validateLockPackageVersion version s!"{entryPath}.version"

/-- The modules and the certificate paths of the entries before. -/
structure SeenEntries where
  modules : List Name
  certificatePaths : List String

def validateLockEntry (seen : SeenEntries) (indexed : PackageLockEntry × Nat) :
    PackageLockResult SeenEntries := do
  let (entry, entryIndex) := indexed
  let entryPath := s!"entries[{entryIndex}]"
  validateLockModuleName entry.module s!"{entryPath}.module"
  validateLockPath entry.certificate s!"{entryPath}.certificate"
  Result.ensure (decide (entry.module ∉ seen.modules))
    (.duplicateLockEntry s!"{entryPath}.module" (asDotted entry.module))
  Result.ensure (decide (entry.certificate.value ∉ seen.certificatePaths))
    (.duplicateCertificatePath s!"{entryPath}.certificate" entry.certificate.value)
  validateLockEntryOrigin entryPath entry
  validateLockImports entry.imports entryPath
  .ok
    { modules := entry.module :: seen.modules
      certificatePaths := entry.certificate.value :: seen.certificatePaths }

def validatePackageLockManifest (lock : PackageLockManifest) : PackageLockResult Unit := do
  Result.ensure (lock.schema = packageLockSchema)
    (.unsupportedSchema "schema" "schema" packageLockSchema lock.schema)
  validateLockPackageId lock.package "package"
  validateLockPackageVersion lock.version "version"
  validateLockPath lock.manifest.path "manifest.path"
  let _ ← Result.foldEach lock.entries.zipIdx ⟨[], []⟩ validateLockEntry
  .ok ()

/-! ### Normal form and import graph -/

/-- `Name::cmp`: the components in lexicographic order. -/
def nameLe (left right : Name) : Prop := left.components ≤ right.components

instance (left right : Name) : Decidable (nameLe left right) :=
  inferInstanceAs (Decidable (left.components ≤ right.components))

def sortedImports (entry : PackageLockEntry) : PackageLockEntry :=
  { entry with
    imports := entry.imports.insertionSort fun left right => nameLe left.module right.module }

def normalizedPackageLock (lock : PackageLockManifest) : PackageLockManifest :=
  { lock with
    entries := (lock.entries.insertionSort fun left right => nameLe left.module right.module).map
      sortedImports }

def lockEntryIndices (entries : List PackageLockEntry) (name : Name) : Option Nat :=
  indexOfName? (entries.map (·.module)) name

/-- The entry that the map of indices leads to, with its index. -/
def lockEntryAt (entries : List PackageLockEntry) (name : Name) :
    Option (PackageLockEntry × Nat) :=
  (lockEntryIndices entries name).bind fun index => entries[index]?.map (·, index)

def checkHash (expected actual : PackageHash) (error : String → String → PackageLockError) :
    PackageLockResult Unit :=
  Result.ensure (expected = actual) (error (formatPackageHash expected) (formatPackageHash actual))

def checkLockImportExportHash (path : String) (expected actual : PackageHash) :
    PackageLockResult Unit :=
  checkHash expected actual (.lockImportExportHashMismatch path)

def checkLockImportCertificateHash (path : String) (expected actual : PackageHash) :
    PackageLockResult Unit :=
  checkHash expected actual (.lockImportCertificateHashMismatch path)

def resolveLockImport (entries : List PackageLockEntry) (entry : PackageLockEntry)
    (importPath : String) (lockImport : PackageLockImport) :
    PackageLockResult PackageLockResolvedImport := inModule entry.module do
  let (importEntry, importEntryIndex) ← Result.okOr (lockEntryAt entries lockImport.module)
    (.lockImportMissing s!"{importPath}.module" (asDotted lockImport.module))
  Result.ensure (!(entry.origin = .external && importEntry.origin = .local))
    (.externalImportDependsOnLocal s!"{importPath}.module" (asDotted lockImport.module))
  checkLockImportExportHash s!"{importPath}.export_hash" importEntry.exportHash
    lockImport.exportHash
  checkLockImportCertificateHash s!"{importPath}.certificate_hash" importEntry.certificateHash
    lockImport.certificateHash
  .ok
    { module := lockImport.module
      entryIndex := importEntryIndex
      exportHash := lockImport.exportHash
      certificateHash := lockImport.certificateHash }

def resolveLockEntryImports (entries : List PackageLockEntry) :
    PackageLockResult (List (List PackageLockResolvedImport)) :=
  Result.collect entries.zipIdx fun (entry, entryIndex) =>
    Result.collect entry.imports.zipIdx fun (lockImport, importIndex) =>
      resolveLockImport entries entry s!"entries[{entryIndex}].imports[{importIndex}]" lockImport

def lockEntryName (entries : List PackageLockEntry) (entryIndex : Nat) : Name :=
  (entries[entryIndex]?.map (·.module)).getD ⟨[]⟩

def lockCyclePath (entries : List PackageLockEntry) (stack : List Nat) (repeated : Nat) : String :=
  let start := (stack.findIdx? (· = repeated)).getD 0
  let cycle := (stack.drop start).map fun entryIndex => asDotted (lockEntryName entries entryIndex)
  " -> ".intercalate (cycle ++ [asDotted (lockEntryName entries repeated)])

def lockCycleError (entries : List PackageLockEntry) (cycle : DepthFirst.Cycle) :
    PackageLockError :=
  -- The source pushes frames at the end of its stack, the walk at the front.
  let stack := (cycle.frames.map (·.node)).reverse
  let entryIndex := (cycle.frames.head?.map (·.node)).getD 0
  (PackageLockError.lockImportCycle s!"entries[{entryIndex}].imports"
    (lockCyclePath entries stack cycle.target)).withModule
      (asDotted (lockEntryName entries entryIndex))

def lockTopologicalOrder (entries : List PackageLockEntry)
    (resolvedEntryImports : List (List PackageLockResolvedImport)) :
    PackageLockResult (List Name) :=
  match DepthFirst.order
      (resolvedEntryImports.map fun imports => imports.map fun entry => some entry.entryIndex) with
  | .ok order => .ok (order.map (lockEntryName entries))
  | .error cycle => .error (lockCycleError entries cycle)

structure NormalizedPackageLockGraphBuild where
  normalizedLock : PackageLockManifest
  graph : PackageLockGraph
  deriving DecidableEq, Repr

def buildNormalizedPackageLockGraph (lock : PackageLockManifest) :
    PackageLockResult NormalizedPackageLockGraphBuild := do
  validatePackageLockManifest lock
  let normalizedLock := normalizedPackageLock lock
  let resolvedEntryImports ← resolveLockEntryImports normalizedLock.entries
  let topologicalOrder ← lockTopologicalOrder normalizedLock.entries resolvedEntryImports
  .ok { normalizedLock, graph := { resolvedEntryImports, topologicalOrder } }

def buildPackageLockGraph (lock : PackageLockManifest) : PackageLockResult PackageLockGraph := do
  let product ← buildNormalizedPackageLockGraph lock
  .ok product.graph

/-! ### Comparison with a manifest -/

def checkCertificateFileHash (path field : String) (expected actual : PackageHash) :
    PackageLockResult Unit :=
  checkHash expected actual (.certificateFileHashMismatch path field)

def checkExportHash (path field : String) (expected actual : PackageHash) :
    PackageLockResult Unit :=
  checkHash expected actual (.exportHashMismatch path field)

def checkAxiomReportHash (path field : String) (expected actual : PackageHash) :
    PackageLockResult Unit :=
  checkHash expected actual (.axiomReportHashMismatch path field)

def checkCertificateHash (path field : String) (expected actual : PackageHash) :
    PackageLockResult Unit :=
  checkHash expected actual (.certificateHashMismatch path field)

def validateManifestModuleEntry (entries : List PackageLockEntry) (moduleIndex : Nat)
    (module : PackageModule) : PackageLockResult Unit := do
  let (entry, entryIndex) ← Result.okOr (lockEntryAt entries module.module)
    (.lockEntryMissing s!"modules[{moduleIndex}].module" (asDotted module.module))
  Result.ensure (entry.origin = .local)
    (.lockEntryOriginMismatch s!"entries[{entryIndex}].origin" "local" entry.origin.asStr)
  Result.ensure (entry.certificate = module.certificate)
    (.lockEntryIdentityMissing s!"entries[{entryIndex}].certificate" "certificate"
      module.certificate.value entry.certificate.value)

def validateManifestImportEntry (entries : List PackageLockEntry) (importIndex : Nat)
    (manifestImport : PackageExternalImport) : PackageLockResult Unit := do
  let (entry, entryIndex) ← Result.okOr (lockEntryAt entries manifestImport.module)
    (.lockEntryMissing s!"imports[{importIndex}].module" (asDotted manifestImport.module))
  Result.ensure (entry.origin = .external)
    (.lockEntryOriginMismatch s!"entries[{entryIndex}].origin" "external" entry.origin.asStr)
  -- An external entry of a validated lock carries a package and a version.
  Result.ensure (entry.package = some manifestImport.package)
    (.lockEntryIdentityMissing s!"entries[{entryIndex}].package" "package"
      manifestImport.package.value ((entry.package.map (·.value)).getD ""))
  Result.ensure (entry.version = some manifestImport.version)
    (.lockEntryIdentityMissing s!"entries[{entryIndex}].version" "version"
      manifestImport.version.value ((entry.version.map (·.value)).getD ""))
  Result.ensure (entry.certificate = manifestImport.certificate)
    (.lockEntryIdentityMissing s!"entries[{entryIndex}].certificate" "certificate"
      manifestImport.certificate.value entry.certificate.value)
  checkExportHash s!"entries[{entryIndex}].export_hash" "export_hash"
    manifestImport.exportHash entry.exportHash
  checkCertificateHash s!"entries[{entryIndex}].certificate_hash" "certificate_hash"
    manifestImport.certificateHash entry.certificateHash

def validateManifestLockEntries (validated : ValidatedPackageManifest)
    (lock : PackageLockManifest) : PackageLockResult Unit := do
  forEachIndexed validated.manifest.modules (validateManifestModuleEntry lock.entries)
  forEachIndexed validated.manifest.topLevelImports (validateManifestImportEntry lock.entries)

def validateLocalManifestHashesOf (entries : List PackageLockEntry) (module : PackageModule) :
    PackageLockResult Unit :=
  match lockEntryAt entries module.module with
  -- The entries of the manifest were found before.
  | none => .ok ()
  | some (entry, entryIndex) => do
    checkCertificateFileHash s!"entries[{entryIndex}].certificate_file_hash"
      "certificate_file_hash" module.expectedCertificateFileHash entry.certificateFileHash
    checkExportHash s!"entries[{entryIndex}].export_hash" "export_hash"
      module.expectedExportHash entry.exportHash
    checkAxiomReportHash s!"entries[{entryIndex}].axiom_report_hash" "axiom_report_hash"
      module.expectedAxiomReportHash entry.axiomReportHash
    checkCertificateHash s!"entries[{entryIndex}].certificate_hash" "certificate_hash"
      module.expectedCertificateHash entry.certificateHash

def validateLocalManifestHashes (validated : ValidatedPackageManifest)
    (lock : PackageLockManifest) : PackageLockResult Unit :=
  Result.forEach validated.manifest.modules (validateLocalManifestHashesOf lock.entries)

def ResolvedModuleImportKind.isExternal : ResolvedModuleImportKind → Bool
  | .local _ => false
  | .external _ => true

def compareManifestImports (moduleIndex entryIndex : Nat) (ownerModule : Name)
    (expectedImports : List ResolvedModuleImport) (actualImports : List PackageLockImport)
    (checkImportHashes : Bool) : PackageLockResult Unit := inModule ownerModule do
  let actualModules ← Result.foldEach actualImports.zipIdx ([] : List Name)
    fun actualModules (actual, importIndex) =>
      match expectedImports.reverse.find? fun expected => expected.module = actual.module with
      -- Certificate imports may include interface dependencies that the source does not import.
      | none => .ok actualModules
      | some expected => do
        if checkImportHashes || expected.kind.isExternal then
          checkLockImportExportHash s!"entries[{entryIndex}].imports[{importIndex}].export_hash"
            expected.exportHash actual.exportHash
          checkLockImportCertificateHash
            s!"entries[{entryIndex}].imports[{importIndex}].certificate_hash"
            expected.certificateHash actual.certificateHash
        .ok (actual.module :: actualModules)
  forEachIndexed expectedImports fun expectedIndex expected =>
    Result.ensure (decide (expected.module ∈ actualModules))
      (.certificateImportMissing s!"modules[{moduleIndex}].imports[{expectedIndex}]"
        (asDotted expected.module))

def validateLocalCertificateImports (validated : ValidatedPackageManifest)
    (lock : PackageLockManifest) (checkImportHashes : Bool) : PackageLockResult Unit :=
  forEachIndexed validated.manifest.modules fun moduleIndex module =>
    match lockEntryAt lock.entries module.module with
    -- The entries of the manifest were found before.
    | none => .ok ()
    | some (entry, entryIndex) =>
      compareManifestImports moduleIndex entryIndex module.module
        (validated.graph.resolvedModuleImports[moduleIndex]?.getD []) entry.imports
        checkImportHashes

def validatePackageLockAgainstManifestGraphProduct (validated : ValidatedPackageManifest)
    (lock : PackageLockManifest) (checkLocalHashes : Bool) :
    PackageLockResult NormalizedPackageLockGraphBuild := do
  let product ← buildNormalizedPackageLockGraph lock
  validateManifestLockEntries validated product.normalizedLock
  validateLocalCertificateImports validated product.normalizedLock checkLocalHashes
  if checkLocalHashes then validateLocalManifestHashes validated product.normalizedLock
  .ok product

def validatePackageLockAgainstManifestGraph (validated : ValidatedPackageManifest)
    (lock : PackageLockManifest) : PackageLockResult PackageLockGraph := do
  let product ← validatePackageLockAgainstManifestGraphProduct validated lock true
  .ok product.graph

end NpaCore.Package
