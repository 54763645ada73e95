import NpaCore.Certificate.Loader

/-!
# Dependencies and axiom reports

`verify_declaration_order` and `verify_dependencies_and_axioms` of
`npa-cert/src/verify.rs`, with the local transparency closure of
`local_transparency.rs`. The structural budget of the closure, which can only
turn an answer into an error, is left out.
-/

namespace NpaCore.Certificate

open NpaCore.Kernel (Reducibility)

def localName (declIndex : Nat) : String := "local." ++ toString declIndex

/-! ### Local transparency -/

section Transparency

variable (nameTable : List String) (declarations : List DeclCert)

/-- `scan_term_roots`: the references in the terms, in canonical order. -/
def scanTermRoots (terms : List Term) : List GlobalRef :=
  sortedSet (globalRefOrderKey nameTable) (terms.flatMap Term.refs)

/-- The references of a declaration; inductive declarations may refer to themselves. -/
def directRefs (currentDeclIndex : Nat) (root : DeclPayload) : List GlobalRef :=
  (scanTermRoots nameTable root.terms).filter fun ref =>
    !(root.isInductive && ref.isSelf currentDeclIndex)

/-- `queue_local_reference`: the earlier local declaration that a reference asks to look at. -/
def queueLocalReference (currentDeclIndex : Nat) : GlobalRef → Option Nat
  | .local declIndex | .localGenerated declIndex _ =>
    if declIndex < currentDeclIndex then some declIndex else none
  | .imported .. | .builtin .. => none

/-- The loop over the queued declarations, smallest index first, which collects the opaque
    definitions on the way. Every declaration is looked at once and queues at most
    `currentDeclIndex` indices, which bounds the turns. -/
def opaqueDefinitionIndices (currentDeclIndex : Nat) :
    Nat → List Nat → List Nat → List Nat → List Nat
  | 0, _, _, found => found
  | _ + 1, [], _, found => found
  | turns + 1, declIndex :: pending, visited, found =>
    if visited.contains declIndex then
      opaqueDefinitionIndices currentDeclIndex turns pending visited found
    else
      match declarations[declIndex]? with
      | none => opaqueDefinitionIndices currentDeclIndex turns pending (declIndex :: visited) found
      | some declaration =>
        let queued := (scanTermRoots nameTable declaration.decl.referencedTerms).filterMap
          (queueLocalReference currentDeclIndex)
        opaqueDefinitionIndices currentDeclIndex turns
          (sortedSet (fun index => [index]) (pending ++ queued)) (declIndex :: visited)
          (if declaration.decl.isOpaqueDefinition then declIndex :: found else found)

/-- `interface_hash_for_reference`. -/
def interfaceHashForReference : GlobalRef → CertResult Hash
  | .builtin _ hash | .imported _ _ hash => .ok hash
  | .local declIndex | .localGenerated declIndex _ =>
    Result.okOr (declarations[declIndex]?.map (·.hashes.declInterfaceHash))
      (.dependencyCycle (localName declIndex))

structure LocalTransparencyDependencies where
  interfaceDependencies : List DependencyEntry
  opaqueDefinitionIndices : List Nat

/-- A plain reference to one of the definitions. -/
def GlobalRef.isLocalIn (indices : List Nat) : GlobalRef → Bool
  | .local declIndex => indices.contains declIndex
  | _ => false

def localTransparencyDependencies (currentDeclIndex : Nat) (root : DeclPayload) :
    CertResult LocalTransparencyDependencies := do
  let direct := directRefs nameTable currentDeclIndex root
  let pending := sortedSet (fun index => [index])
    (direct.filterMap (queueLocalReference currentDeclIndex))
  let opaqueIndices := sortedSet (fun index => [index])
    (opaqueDefinitionIndices nameTable declarations currentDeclIndex
      ((currentDeclIndex + 1) * (currentDeclIndex + 1)) pending [] [])
  let interfaceDependencies ← Result.collect
    (direct.filter fun ref => !ref.isLocalIn opaqueIndices) fun ref => do
      let hash ← interfaceHashForReference declarations ref
      .ok (.interface ref hash)
  .ok ⟨interfaceDependencies, opaqueIndices⟩

/-- `DependencyEntry::checked_local_implementation`. -/
def checkedLocalImplementation (currentDeclIndex declIndex : Nat) :
    CertResult DependencyEntry := do
  Result.ensure (declIndex < currentDeclIndex) (.dependencyCycle (localName declIndex))
  let target ← Result.okOr declarations[declIndex]? .decodeError
  Result.ensure target.decl.isOpaqueDefinition .decodeError
  .ok (.localImplementation (.local declIndex) target.hashes.declInterfaceHash
    target.hashes.declCertificateHash)

def completeLocalTransparencyDependencies (closure : LocalTransparencyDependencies)
    (currentDeclIndex : Nat) : CertResult (List DependencyEntry) := do
  let implementations ← Result.collect closure.opaqueDefinitionIndices
    (checkedLocalImplementation declarations currentDeclIndex)
  .ok (sortedSet (dependencyEntryOrderKey nameTable)
    (closure.interfaceDependencies ++ implementations))

/-- The check of one implementation entry, with the index it names. -/
def validateLocalImplementationEntry (currentDeclIndex : Nat) (ref : GlobalRef)
    (interfaceHash certificateHash : Hash) : CertResult Nat :=
  let invalid (reason : LocalImplementationDependencyErrorReason) : CertError :=
    .invalidLocalImplementationDependency currentDeclIndex ref reason
  match ref with
  | .local declIndex => do
    let target ← Result.okOr declarations[declIndex]? (invalid .targetNotEarlier)
    Result.ensure (declIndex < currentDeclIndex) (invalid .targetNotEarlier)
    Result.ensure target.decl.isOpaqueDefinition (invalid .targetNotOpaque)
    Result.ensure (interfaceHash = target.hashes.declInterfaceHash)
      (invalid .interfaceHashMismatch)
    Result.ensure (certificateHash = target.hashes.declCertificateHash)
      (invalid .certificateHashMismatch)
    .ok declIndex
  | _ => .error (invalid .wrongReferenceKind)

def validateLocalImplementationEntries (currentDeclIndex : Nat)
    (dependencies : List DependencyEntry) : CertResult (List Nat) := do
  let actual ← Result.collect dependencies fun
    | .interface .. => .ok none
    | .localImplementation ref interfaceHash certificateHash => do
      let declIndex ← validateLocalImplementationEntry declarations currentDeclIndex ref
        interfaceHash certificateHash
      .ok (some declIndex)
  .ok (sortedSet (fun index => [index]) (actual.filterMap id))

def validateLocalImplementationClosure (currentDeclIndex : Nat) (actual expected : List Nat) :
    CertResult Unit := do
  let invalid (declIndex : Nat) (reason : LocalImplementationDependencyErrorReason) : CertError :=
    .invalidLocalImplementationDependency currentDeclIndex (.local declIndex) reason
  match expected.filter fun index => !actual.contains index with
  | declIndex :: _ => .error (invalid declIndex .missingImplementationDependency)
  | [] =>
    match actual.filter fun index => !expected.contains index with
    | declIndex :: _ => .error (invalid declIndex .surplusImplementationDependency)
    | [] => .ok ()

end Transparency

/-! ### Expected dependencies -/

section Dependencies

variable (cert : ModuleCert) (imports : List ModuleCert)

/-- `interface_hash_for_global_ref`. -/
def interfaceHashForGlobalRef (currentDeclIndex : Nat) : GlobalRef → CertResult Hash
  | .builtin name hash => do
    Result.ensure (builtinDeclInterfaceHash name = some hash) (.unknownDependency name)
    .ok hash
  | .local declIndex => do
    Result.ensure (declIndex < currentDeclIndex) (.dependencyCycle (localName declIndex))
    let decl ← Result.okOr cert.declarations[declIndex]? .decodeError
    .ok decl.hashes.declInterfaceHash
  | .localGenerated declIndex name => do
    Result.ensure (declIndex < currentDeclIndex) (.dependencyCycle name)
    let decl ← Result.okOr cert.declarations[declIndex]? .decodeError
    Result.ensure (decl.decl.generatesName name) (.unknownDependency name)
    .ok decl.hashes.declInterfaceHash
  | .imported importIndex name hash => do
    let (imported, entry) ← importedExportEntryForGlobalRef imports
      (.imported importIndex name hash)
    Result.ensure (entry.declInterfaceHash = hash) (.importHashMismatch imported.module)
    .ok hash

def expectedDependenciesForDecl (declIndex : Nat) (decl : DeclCert) :
    CertResult (List DependencyEntry) := do
  let actual ← validateLocalImplementationEntries cert.declarations declIndex decl.dependencies
  let closure ← localTransparencyDependencies cert.nameTable cert.declarations declIndex decl.decl
  validateLocalImplementationClosure declIndex actual closure.opaqueDefinitionIndices
  Result.forEach closure.interfaceDependencies fun dependency => do
    let expected ← interfaceHashForGlobalRef cert imports declIndex dependency.globalRef
    Result.ensure (dependency.declInterfaceHash = expected)
      (.hashMismatch dependency.declInterfaceHash expected)
  completeLocalTransparencyDependencies cert.nameTable cert.declarations closure declIndex

/-! ### Expected axioms -/

/-- `import_index_exporting_axiom`. -/
def importIndexExportingAxiom (name : String) (declInterfaceHash : Hash) : CertResult Nat :=
  Result.okOr
    (imports.findIdx? fun imported => imported.exportBlock.any fun entry =>
      entry.kind = .axiomExport && entry.declInterfaceHash = declInterfaceHash
        && entry.name = name)
    (.unknownDependency name)

/-- `remap_axiom_ref_from_cert_import`: an axiom of an import under a reference of this
    certificate. -/
def remapAxiomRefFromCertImport (ref : AxiomRef) : CertResult AxiomRef := do
  Result.ensure (cert.nameTable.contains ref.name) .decodeError
  match ref.globalRef with
  | .builtin _ hash => do
    Result.ensure (builtinDeclInterfaceHash ref.name = some hash) (.unknownDependency ref.name)
    .ok ⟨.builtin ref.name hash, ref.name, hash⟩
  | _ => do
    let importIndex ← importIndexExportingAxiom imports ref.name ref.declInterfaceHash
    .ok ⟨.imported importIndex ref.name ref.declInterfaceHash, ref.name, ref.declInterfaceHash⟩

/-- `local_axiom_ref_for_decl`. -/
def localAxiomRefForDecl (declIndex : Nat) (axioms : List AxiomRef) : Option AxiomRef :=
  axioms.find? fun ref => ref.globalRef = .local declIndex

/-- The direct and the transitive axioms that one dependency contributes. -/
def axiomsForDependency (previous : List (List AxiomRef)) :
    GlobalRef → CertResult (List AxiomRef × List AxiomRef)
  | .builtin name hash =>
    if builtinIsAxiom name then
      let axiomRef : AxiomRef := ⟨.builtin name hash, name, hash⟩
      .ok ([axiomRef], [axiomRef])
    else .ok ([], [])
  | .local declIndex =>
    let axioms := (previous[declIndex]?).getD []
    .ok ((localAxiomRefForDecl declIndex axioms).toList, axioms)
  | .localGenerated declIndex _ => .ok ([], (previous[declIndex]?).getD [])
  | .imported importIndex name hash => do
    let (_, entry) ← importedExportEntryForGlobalRef imports (.imported importIndex name hash)
    let transitive ← Result.collect entry.axiomDependencies
      (remapAxiomRefFromCertImport cert imports)
    .ok (if entry.kind = .axiomExport then
      [⟨.imported importIndex name hash, name, hash⟩] else [], transitive)

/-- The reference of an axiom to itself. -/
def selfAxiom (declIndex : Nat) (decl : DeclCert) : List AxiomRef :=
  match decl.decl with
  | .axiomDecl name .. => [⟨.local declIndex, name, decl.hashes.declInterfaceHash⟩]
  | _ => []

def expectedAxiomsForDecl (declIndex : Nat) (decl : DeclCert)
    (dependencies : List DependencyEntry) (previous : List (List AxiomRef)) :
    CertResult (List AxiomRef × List AxiomRef) := do
  let parts ← Result.collect dependencies fun dependency =>
    axiomsForDependency cert imports previous dependency.globalRef
  let key := axiomRefOrderKey cert.nameTable
  let self := selfAxiom declIndex decl
  .ok (sortedSet key (parts.flatMap (·.1) ++ self), sortedSet key (parts.flatMap (·.2) ++ self))

/-- The checks of one declaration against the lists of the declarations before it. -/
def verifyDeclAxioms (previous : List (List AxiomRef)) (entry : DeclCert × Nat) :
    CertResult (List (List AxiomRef)) := do
  let (decl, declIndex) := entry
  let mismatch : CertError := .axiomReportMismatch (some decl.decl.primaryName)
  let dependencies ← expectedDependenciesForDecl cert imports declIndex decl
  Result.ensure (dependencies = decl.dependencies) mismatch
  let (direct, transitive) ← expectedAxiomsForDecl cert imports declIndex decl dependencies previous
  Result.ensure (transitive = decl.axiomDependencies) mismatch
  Result.ensure
    (cert.axiomReport.perDeclaration[declIndex]? = some ⟨declIndex, direct, transitive⟩) mismatch
  .ok (previous ++ [transitive])

def verifyDependenciesAndAxioms : CertResult Unit := do
  let reports ← Result.foldEach cert.declarations.zipIdx [] (verifyDeclAxioms cert imports)
  Result.ensure (cert.axiomReport.perDeclaration.length = reports.length)
    (.axiomReportMismatch none)
  Result.ensure
    (sortedSet (axiomRefOrderKey cert.nameTable) reports.flatten = cert.axiomReport.moduleAxioms)
    (.axiomReportMismatch none)

end Dependencies

/-! ### Declaration order -/

section Order

variable (cert : ModuleCert)

/-- The earlier declarations that a dependency puts before the declaration. -/
def orderDependency (declIndex : Nat) (name : String) : DependencyEntry → CertResult (List Nat)
  | .localImplementation (.local dependency) .. =>
    .ok (if dependency < declIndex then [dependency] else [])
  | .localImplementation .. => .ok []
  | .interface (.local dependency) _ => do
    Result.ensure (dependency < declIndex) (.dependencyCycle name)
    .ok [dependency]
  | .interface (.localGenerated dependency generated) _ => do
    Result.ensure (dependency < declIndex) (.dependencyCycle name)
    let decl ← Result.okOr cert.declarations[dependency]? .decodeError
    Result.ensure (decl.decl.generatesName generated) (.unknownDependency generated)
    .ok [dependency]
  | .interface .. => .ok []

/-- `Name` is compared by its components. -/
def nameComponents (name : String) : List (List Char) := Kernel.splitDots name.toList

/-- The order by layers: each turn emits the declarations whose dependencies were emitted
    before, sorted by name, and emits at least one. -/
def layeredOrder (names : List String) (dependencies : List (List Nat)) :
    Nat → List Nat → List Nat → CertResult (List Nat)
  | 0, _, emitted => .ok emitted
  | _ + 1, [], emitted => .ok emitted
  | turns + 1, first :: others, emitted =>
    let remaining := first :: others
    let ready := remaining.filter fun index =>
      ((dependencies[index]?).getD []).all emitted.contains
    if ready.isEmpty then .error (.dependencyCycle ((names[first]?).getD ""))
    else
      let sorted := ready.insertionSort fun x y =>
        (compare (nameComponents ((names[x]?).getD "")) (nameComponents ((names[y]?).getD ""))).isLE
      layeredOrder names dependencies turns
        (remaining.filter fun index => !ready.contains index) (emitted ++ sorted)

/-- The loop of `ensure_unique_names`. -/
def ensureUniqueNames (seen : List String) : List String → CertResult Unit
  | [] => .ok ()
  | name :: rest => do
    Result.ensure (!seen.contains name) (.duplicateName name)
    ensureUniqueNames (name :: seen) rest

def verifyDeclarationOrder : CertResult Unit := do
  let names := cert.declarations.map (·.decl.primaryName)
  ensureUniqueNames [] names
  let dependencies ← Result.collect cert.declarations.zipIdx fun (decl, declIndex) => do
    let parts ← Result.collect decl.dependencies
      (orderDependency cert declIndex decl.decl.primaryName)
    .ok parts.flatten
  let indices := List.range cert.declarations.length
  let expected ← layeredOrder names dependencies cert.declarations.length indices []
  Result.ensure (expected = indices) (.nonCanonicalEncoding "Declarations")

end Order

end NpaCore.Certificate
