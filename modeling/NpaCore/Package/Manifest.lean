import Mathlib.Data.List.Infix
import NpaCore.Lib.DepthFirst
import NpaCore.Wire.Format

/-!
# Package manifests

The manifest of `npa-package/src/manifest.rs` and its validation: `validate.rs`,
`name.rs`, `path.rs`, and the import graph of `graph.rs`. Fields that validation and the
package lock do not read are left out.
-/

namespace NpaCore.Package

open NpaCore.Wire (Hash Name)

/-! ### Values -/

structure PackageId where
  value : String
  deriving DecidableEq, Repr

structure PackageVersion where
  value : String
  deriving DecidableEq, Repr

structure PackagePath where
  value : String
  deriving DecidableEq, Repr

abbrev PackageHash := Hash

def asDotted (name : Name) : String := ".".intercalate name.components

def hexDigit (value : Nat) : Char :=
  if value < 10 then Char.ofNat ('0'.toNat + value) else Char.ofNat ('a'.toNat + (value - 10))

def formatPackageHash (hash : PackageHash) : String :=
  hash.toList.foldl
    (fun out byte => (out.push (hexDigit (byte.toNat / 16))).push (hexDigit (byte.toNat % 16)))
    "sha256:"

structure PackagePolicy where
  allowCustomAxioms : Bool
  allowedAxioms : List Name
  deriving DecidableEq, Repr

structure PackageExternalImport where
  module : Name
  package : PackageId
  version : PackageVersion
  certificate : PackagePath
  exportHash : PackageHash
  certificateHash : PackageHash
  deriving DecidableEq, Repr

structure PackageModule where
  module : Name
  source : PackagePath
  certificate : PackagePath
  imports : List Name
  expectedCertificateFileHash : PackageHash
  expectedExportHash : PackageHash
  expectedAxiomReportHash : PackageHash
  expectedCertificateHash : PackageHash
  metaPath : Option PackagePath
  replay : Option PackagePath
  inductives : Option (List Name)
  definitions : Option (List Name)
  theorems : Option (List Name)
  axioms : Option (List Name)
  deriving DecidableEq, Repr

structure PackageManifest where
  schema : String
  package : PackageId
  version : PackageVersion
  coreSpec : String
  kernelProfile : String
  certificateFormat : String
  checkerProfile : String
  policy : PackagePolicy
  modules : List PackageModule
  imports : Option (List PackageExternalImport)
  deriving DecidableEq, Repr

/-! ### Errors -/

inductive PackageManifestErrorKind where
  | unsupportedVersion
  | domain
  | duplicate
  | path
  | graph
  | policy
  deriving DecidableEq, Repr

inductive PackageManifestErrorReason where
  | unsupportedSchema
  | invalidPackageId
  | invalidVersion
  | invalidProfile
  | invalidModuleName
  | invalidDeclarationName
  | invalidAxiomName
  | invalidPath
  | duplicateModule
  | duplicateExternalImport
  | duplicateDeclaration
  | duplicateAxiom
  | duplicateArtifactPath
  | localExternalModuleCollision
  | unknownImport
  | importCycle
  | disallowedAxiom
  deriving DecidableEq, Repr

structure PackageManifestError where
  kind : PackageManifestErrorKind
  path : String
  field : Option String
  reasonCode : PackageManifestErrorReason
  expectedValue : Option String
  actualValue : Option String
  deriving DecidableEq, Repr

abbrev PackageManifestResult := Except PackageManifestError

namespace PackageManifestError

def unsupportedSchema (path field expected actual : String) : PackageManifestError :=
  ⟨.unsupportedVersion, path, some field, .unsupportedSchema, some expected, some actual⟩

def invalidPackageId (path actual : String) : PackageManifestError :=
  ⟨.domain, path, none, .invalidPackageId, some "lowercase ASCII package id", some actual⟩

def invalidVersion (path actual : String) : PackageManifestError :=
  ⟨.domain, path, none, .invalidVersion, some "MAJOR.MINOR.PATCH without leading zeroes",
    some actual⟩

def invalidProfile (path field expected actual : String) : PackageManifestError :=
  ⟨.domain, path, some field, .invalidProfile, some expected, some actual⟩

def invalidModuleName (path actual : String) : PackageManifestError :=
  ⟨.domain, path, none, .invalidModuleName, some "canonical dotted name", some actual⟩

def invalidDeclarationName (path actual : String) : PackageManifestError :=
  ⟨.domain, path, none, .invalidDeclarationName, some "canonical dotted name", some actual⟩

def invalidAxiomName (path actual : String) : PackageManifestError :=
  ⟨.domain, path, none, .invalidAxiomName, some "canonical dotted name", some actual⟩

def invalidPath (path actual : String) : PackageManifestError :=
  ⟨.path, path, none, .invalidPath, some "lexical package-relative path", some actual⟩

def duplicate (path field : String) (reasonCode : PackageManifestErrorReason) (actual : String) :
    PackageManifestError :=
  ⟨.duplicate, path, some field, reasonCode, some "unique value", some actual⟩

def duplicateModule (path actual : String) : PackageManifestError :=
  duplicate path "module" .duplicateModule actual

def duplicateExternalImport (path actual : String) : PackageManifestError :=
  duplicate path "module" .duplicateExternalImport actual

def duplicateDeclaration (path actual : String) : PackageManifestError :=
  duplicate path "declaration" .duplicateDeclaration actual

def duplicateAxiom (path actual : String) : PackageManifestError :=
  duplicate path "axiom" .duplicateAxiom actual

def duplicateArtifactPath (path actual : String) : PackageManifestError :=
  duplicate path "artifact_path" .duplicateArtifactPath actual

def localExternalModuleCollision (path actual : String) : PackageManifestError :=
  duplicate path "module" .localExternalModuleCollision actual

def unknownImport (path actual : String) : PackageManifestError :=
  ⟨.graph, path, some "imports", .unknownImport,
    some "local module or hash-pinned top-level external import", some actual⟩

def importCycle (path actual : String) : PackageManifestError :=
  ⟨.graph, path, some "imports", .importCycle, some "acyclic local module graph", some actual⟩

def disallowedAxiom (path field expected actual : String) : PackageManifestError :=
  ⟨.policy, path, some field, .disallowedAxiom, some expected, some actual⟩

end PackageManifestError

/-! ### Scalar domains -/

def isValidPackageId (value : String) : Bool :=
  match value.toList with
  | [] => false
  | first :: rest =>
    decide (value.utf8ByteSize ≤ 64) && first.isLower &&
      rest.all fun c => c.isLower || c.isDigit || c = '-'

def validatePackageId (id : PackageId) (path : String) : PackageManifestResult Unit :=
  Result.ensure (isValidPackageId id.value) (.invalidPackageId path id.value)

def isValidVersionSegment (segment : List Char) : Bool :=
  !segment.isEmpty && segment.all Char.isDigit &&
    !(decide (1 < segment.length) && segment.head? = some '0')

def isValidPackageVersion (value : String) : Bool :=
  let segments := value.toList.splitOn '.'
  segments.all isValidVersionSegment && segments.length = 3

def validatePackageVersion (version : PackageVersion) (path : String) :
    PackageManifestResult Unit :=
  Result.ensure (isValidPackageVersion version.value) (.invalidVersion path version.value)

def validateCanonicalModuleName (name : Name) (path : String) : PackageManifestResult Unit :=
  Result.ensure name.isCanonical (.invalidModuleName path (asDotted name))

def validateCanonicalDeclarationName (name : Name) (path : String) : PackageManifestResult Unit :=
  Result.ensure name.isCanonical (.invalidDeclarationName path (asDotted name))

def validateCanonicalAxiomName (name : Name) (path : String) : PackageManifestResult Unit :=
  Result.ensure name.isCanonical (.invalidAxiomName path (asDotted name))

/-- `char::is_control`: the general category `Cc`. -/
def isControl (c : Char) : Bool :=
  decide (c.toNat < 0x20) || (decide (0x7f ≤ c.toNat) && decide (c.toNat ≤ 0x9f))

def hasUriScheme (value : List Char) : Bool :=
  let scheme := value.takeWhile (· ≠ ':')
  value.contains ':' && !scheme.contains '/' &&
    match scheme with
    | [] => false
    | first :: rest =>
      first.isAlpha && rest.all fun c => c.isAlphanum || c = '+' || c = '-' || c = '.'

def isValidPackagePath (value : List Char) : Bool :=
  !value.isEmpty && value.head? ≠ some '/' && !value.contains '\\' && !value.any isControl &&
    !hasUriScheme value &&
    (value.splitOn '/').all fun component =>
      !component.isEmpty && component ≠ ['.'] && component ≠ ['.', '.']

def validatePackagePath (path : PackagePath) (errorPath : String) : PackageManifestResult Unit :=
  Result.ensure (isValidPackagePath path.value.toList) (.invalidPath errorPath path.value)

/-! ### The checks of a manifest -/

def packageManifestSchema : String := "npa.package.v0.1"

def coreSpecV01 : String := "npa.core.v0.1"

def kernelProfileV01 : String := "npa.kernel.v0.1"

def certificateFormatCanonicalV01 : String := "npa.certificate.canonical.v0.1"

def checkerProfileReferenceV01 : String := "npa.checker.reference.v0.1"

def validateExactProfile (path field actual expected : String) : PackageManifestResult Unit :=
  Result.ensure (actual = expected) (.invalidProfile path field expected actual)

def validateFixedSchemaAndProfiles (manifest : PackageManifest) : PackageManifestResult Unit := do
  Result.ensure (manifest.schema = packageManifestSchema)
    (.unsupportedSchema "schema" "schema" packageManifestSchema manifest.schema)
  validateExactProfile "core_spec" "core_spec" manifest.coreSpec coreSpecV01
  validateExactProfile "kernel_profile" "kernel_profile" manifest.kernelProfile kernelProfileV01
  validateExactProfile "certificate_format" "certificate_format" manifest.certificateFormat
    certificateFormatCanonicalV01
  validateExactProfile "checker_profile" "checker_profile" manifest.checkerProfile
    checkerProfileReferenceV01

/-- `for (index, item) in items.iter().enumerate()`. -/
def forEachIndexed {ε α : Type} (items : List α) (step : Nat → α → Except ε Unit) :
    Except ε Unit :=
  Result.forEach items.zipIdx fun (item, index) => step index item

def validateNameList (names : List Name) (path : String)
    (validate : Name → String → PackageManifestResult Unit) : PackageManifestResult Unit :=
  forEachIndexed names fun index name => validate name s!"{path}[{index}]"

/-- `if let Some(value) = value { check(value)? }`. -/
def ifSome {ε α : Type} (value : Option α) (check : α → Except ε Unit) : Except ε Unit :=
  match value with
  | none => .ok ()
  | some value => check value

def validateModuleScalarDomains (index : Nat) (module : PackageModule) :
    PackageManifestResult Unit := do
  let path := s!"modules[{index}]"
  validateCanonicalModuleName module.module s!"{path}.module"
  validatePackagePath module.source s!"{path}.source"
  validatePackagePath module.certificate s!"{path}.certificate"
  validateNameList module.imports s!"{path}.imports" validateCanonicalModuleName
  ifSome module.metaPath fun metaPath => validatePackagePath metaPath s!"{path}.meta"
  ifSome module.replay fun replay => validatePackagePath replay s!"{path}.replay"
  ifSome module.inductives fun inductives =>
    validateNameList inductives s!"{path}.inductives" validateCanonicalDeclarationName
  ifSome module.definitions fun definitions =>
    validateNameList definitions s!"{path}.definitions" validateCanonicalDeclarationName
  ifSome module.theorems fun theorems =>
    validateNameList theorems s!"{path}.theorems" validateCanonicalDeclarationName
  ifSome module.axioms fun axioms =>
    validateNameList axioms s!"{path}.axioms" validateCanonicalAxiomName

def validateScalarDomains (manifest : PackageManifest) : PackageManifestResult Unit := do
  validatePackageId manifest.package "package"
  validatePackageVersion manifest.version "version"
  forEachIndexed manifest.policy.allowedAxioms fun index name =>
    validateCanonicalAxiomName name s!"policy.allowed_axioms[{index}]"
  ifSome manifest.imports fun imports =>
    forEachIndexed imports fun index entry => do
      let path := s!"imports[{index}]"
      validateCanonicalModuleName entry.module s!"{path}.module"
      validatePackageId entry.package s!"{path}.package"
      validatePackageVersion entry.version s!"{path}.version"
      validatePackagePath entry.certificate s!"{path}.certificate"
  forEachIndexed manifest.modules validateModuleScalarDomains

/-! ### Duplicates -/

/-- A loop with a map of the keys seen so far: an item whose key is in it is refused. -/
def rejectRepeated {ε α κ : Type} [DecidableEq κ] (items : List α) (key : α → κ)
    (error : α → ε) : Except ε Unit :=
  Result.foldEach items ([] : List κ) (fun seen item =>
    if key item ∈ seen then .error (error item) else .ok (key item :: seen)) >>= fun _ => .ok ()

def validateDuplicateModuleNames (modules : List PackageModule) : PackageManifestResult Unit :=
  rejectRepeated modules.zipIdx (fun (module, _) => module.module) fun (module, index) =>
    .duplicateModule s!"modules[{index}].module" (asDotted module.module)

def validateDuplicateExternalImports (imports : List PackageExternalImport) :
    PackageManifestResult Unit :=
  rejectRepeated imports.zipIdx (fun (entry, _) => entry.module) fun (entry, index) =>
    .duplicateExternalImport s!"imports[{index}].module" (asDotted entry.module)

def validateLocalExternalModuleCollisions (modules : List PackageModule)
    (imports : List PackageExternalImport) : PackageManifestResult Unit :=
  forEachIndexed modules fun index module =>
    Result.ensure (decide (module.module ∉ imports.map (·.module)))
      (.localExternalModuleCollision s!"modules[{index}].module" (asDotted module.module))

def validateDuplicateNames (names : List Name) (path : String)
    (error : String → String → PackageManifestError) : PackageManifestResult Unit :=
  rejectRepeated names.zipIdx (fun (name, _) => name) fun (name, index) =>
    error s!"{path}[{index}]" (asDotted name)

/-- The declaration lists of a module share one map of the names seen so far. -/
def validateDuplicateDeclarations (moduleIndex : Nat) (module : PackageModule) :
    PackageManifestResult Unit :=
  let fields := [("inductives", module.inductives), ("definitions", module.definitions),
    ("theorems", module.theorems)]
  let names := fields.flatMap fun (field, names) =>
    (names.getD []).zipIdx.map fun (name, index) =>
      (name, s!"modules[{moduleIndex}].{field}[{index}]")
  rejectRepeated names (fun (name, _) => name) fun (name, path) =>
    .duplicateDeclaration path (asDotted name)

def validateDuplicateModuleAxioms (moduleIndex : Nat) (module : PackageModule) :
    PackageManifestResult Unit :=
  ifSome module.axioms fun axioms =>
    validateDuplicateNames axioms s!"modules[{moduleIndex}].axioms" .duplicateAxiom

def moduleArtifactPaths (module : PackageModule) : List (String × PackagePath) :=
  [("source", module.source), ("certificate", module.certificate)] ++
    (module.metaPath.toList.map fun path => ("meta", path)) ++
    (module.replay.toList.map fun path => ("replay", path))

def validateDuplicateModuleArtifactPaths (modules : List PackageModule) :
    PackageManifestResult Unit :=
  let paths := modules.zipIdx.flatMap fun (module, index) =>
    (moduleArtifactPaths module).map fun (field, path) => (path, s!"modules[{index}].{field}")
  rejectRepeated paths (fun (path, _) => path) fun (path, place) =>
    .duplicateArtifactPath place path.value

def validateDuplicateDomains (manifest : PackageManifest) : PackageManifestResult Unit := do
  validateDuplicateModuleNames manifest.modules
  ifSome manifest.imports fun imports => do
    validateDuplicateExternalImports imports
    validateLocalExternalModuleCollisions manifest.modules imports
  validateDuplicateNames manifest.policy.allowedAxioms "policy.allowed_axioms" .duplicateAxiom
  forEachIndexed manifest.modules fun index module => do
    validateDuplicateDeclarations index module
    validateDuplicateModuleAxioms index module
  validateDuplicateModuleArtifactPaths manifest.modules

/-! ### The import graph -/

inductive ResolvedModuleImportKind where
  | local (moduleIndex : Nat)
  | external (importIndex : Nat)
  deriving DecidableEq, Repr

structure ResolvedModuleImport where
  module : Name
  kind : ResolvedModuleImportKind
  exportHash : PackageHash
  certificateHash : PackageHash
  deriving DecidableEq, Repr

structure PackageGraph where
  resolvedModuleImports : List (List ResolvedModuleImport)
  topologicalOrder : List Nat
  deriving DecidableEq, Repr

/-- The map from names to their indices, in which a later index replaces an earlier one. -/
def indexOfName? (names : List Name) (name : Name) : Option Nat :=
  (names.zipIdx.reverse.find? fun (other, _) => other = name).map (·.2)

theorem indexOfName?_eq_some {names : List Name} {name : Name} {index : Nat}
    (h : indexOfName? names name = some index) : names[index]? = some name := by
  unfold indexOfName? at h
  obtain ⟨⟨other, _⟩, found, rfl⟩ := Option.map_eq_some_iff.mp h
  have same : other = name := by simpa using List.find?_some found
  have mem : (other, _) ∈ names.zipIdx := List.mem_reverse.mp (List.mem_of_find?_eq_some found)
  exact same ▸ List.mk_mem_zipIdx_iff_getElem?.mp mem

theorem indexOfName?_isSome {names : List Name} {name : Name} (mem : name ∈ names) :
    ∃ index, indexOfName? names name = some index := by
  obtain ⟨index, hindex⟩ := List.mem_iff_getElem?.mp mem
  have here : (name, index) ∈ names.zipIdx.reverse :=
    List.mem_reverse.mpr (List.mk_mem_zipIdx_iff_getElem?.mpr hindex)
  unfold indexOfName?
  cases hfound : List.find? _ names.zipIdx.reverse with
  | none => simpa using List.find?_eq_none.mp hfound _ here
  | some found => exact ⟨found.2, rfl⟩

def localModuleIndex (modules : List PackageModule) (name : Name) : Option Nat :=
  indexOfName? (modules.map (·.module)) name

def externalImportIndex (imports : List PackageExternalImport) (name : Name) : Option Nat :=
  indexOfName? (imports.map (·.module)) name

def PackageManifest.topLevelImports (manifest : PackageManifest) : List PackageExternalImport :=
  manifest.imports.getD []

def resolveModuleImport (manifest : PackageManifest) (path : String) (importName : Name) :
    PackageManifestResult ResolvedModuleImport :=
  match (localModuleIndex manifest.modules importName).bind fun index =>
      manifest.modules[index]?.map (·, index) with
  | some (localModule, moduleIndex) =>
    .ok
      { module := importName
        kind := .local moduleIndex
        exportHash := localModule.expectedExportHash
        certificateHash := localModule.expectedCertificateHash }
  | none =>
    match (externalImportIndex manifest.topLevelImports importName).bind fun index =>
        manifest.topLevelImports[index]?.map (·, index) with
    | some (externalImport, importIndex) =>
      .ok
        { module := importName
          kind := .external importIndex
          exportHash := externalImport.exportHash
          certificateHash := externalImport.certificateHash }
    | none => .error (.unknownImport path (asDotted importName))

def resolveModuleImports (manifest : PackageManifest) :
    PackageManifestResult (List (List ResolvedModuleImport)) :=
  Result.collect manifest.modules.zipIdx fun (module, moduleIndex) =>
    Result.collect module.imports.zipIdx fun (importName, importIndex) =>
      resolveModuleImport manifest s!"modules[{moduleIndex}].imports[{importIndex}]" importName

/-- The edge of a resolved import: an external one is passed over. -/
def ResolvedModuleImport.edge (resolved : ResolvedModuleImport) : Option Nat :=
  match resolved.kind with
  | .local moduleIndex => some moduleIndex
  | .external _ => none

def manifestCycleError (resolved : List (List ResolvedModuleImport)) (cycle : DepthFirst.Cycle) :
    PackageManifestError :=
  let moduleIndex := (cycle.frames.head?.map (·.node)).getD 0
  let name := ((resolved[moduleIndex]?.getD [])[cycle.edge]?.map (·.module)).getD ⟨[]⟩
  .importCycle s!"modules[{moduleIndex}].imports[{cycle.edge}]" (asDotted name)

def topologicalOrder (resolved : List (List ResolvedModuleImport)) :
    PackageManifestResult (List Nat) :=
  match DepthFirst.order (resolved.map fun imports => imports.map (·.edge)) with
  | .ok order => .ok order
  | .error cycle => .error (manifestCycleError resolved cycle)

def resolvePackageGraph (manifest : PackageManifest) : PackageManifestResult PackageGraph := do
  let resolvedModuleImports ← resolveModuleImports manifest
  let topologicalOrder ← topologicalOrder resolvedModuleImports
  .ok { resolvedModuleImports, topologicalOrder }

/-! ### The axiom policy -/

def mentionsSorry (name : Name) : Bool := decide ("sorry".toList <:+: (asDotted name).toList)

def validateAxiomPolicy (manifest : PackageManifest) : PackageManifestResult Unit := do
  forEachIndexed manifest.policy.allowedAxioms fun index name =>
    Result.ensure (!mentionsSorry name)
      (.disallowedAxiom s!"policy.allowed_axioms[{index}]" "allowed_axioms" "non-sorry axiom"
        (asDotted name))
  forEachIndexed manifest.modules fun moduleIndex module =>
    ifSome module.axioms fun axioms =>
      forEachIndexed axioms fun axiomIndex name => do
        let path := s!"modules[{moduleIndex}].axioms[{axiomIndex}]"
        Result.ensure (!mentionsSorry name)
          (.disallowedAxiom path "axioms" "non-sorry axiom" (asDotted name))
        Result.ensure
          (manifest.policy.allowCustomAxioms || decide (name ∈ manifest.policy.allowedAxioms))
          (.disallowedAxiom path "axioms" "allowed axiom or allow_custom_axioms = true"
            (asDotted name))

/-! ### Validated manifests -/

/-- The checks of `validate_manifest_with_options`, in their order. -/
def validatedGraph (manifest : PackageManifest) : PackageManifestResult PackageGraph := do
  validateFixedSchemaAndProfiles manifest
  validateScalarDomains manifest
  validateDuplicateDomains manifest
  let graph ← resolvePackageGraph manifest
  validateAxiomPolicy manifest
  .ok graph

/-- A manifest that passed validation, with its graph. -/
structure ValidatedPackageManifest where
  manifest : PackageManifest
  graph : PackageGraph
  validated : validatedGraph manifest = .ok graph

def validateManifest (manifest : PackageManifest) :
    PackageManifestResult ValidatedPackageManifest :=
  match h : validatedGraph manifest with
  | .ok graph => .ok { manifest, graph, validated := h }
  | .error error => .error error

end NpaCore.Package
