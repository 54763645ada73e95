import Mathlib.Logic.Relation
import NpaCore.Package.Lock

/-!
# Accountability of package locks

What an accepted lock says about its manifest. The comparison goes from the manifest to
the lock and from an import to its entry. It never goes from a lock entry back to the
manifest, and it does not look at the lock's own package identity.

## Main results

* `graph_order`: the verification order of a lock lists every entry once, after the
  entries it imports.
* `accountable_iff`: an accepted lock is accountable exactly when its identity is the
  manifest's, its local entries are modules of the manifest, and its external entries are
  reached from the manifest.
-/

namespace NpaCore.Package

open NpaCore.Wire (Hash Name)

/-! ### Accountability -/

/-- The entry carries what the manifest pins for the module. -/
structure LocalEntryOf (pinned : PackageModule) (entry : PackageLockEntry) : Prop where
  origin : entry.origin = .local
  module : entry.module = pinned.module
  certificate : entry.certificate = pinned.certificate
  certificateFileHash : entry.certificateFileHash = pinned.expectedCertificateFileHash
  exportHash : entry.exportHash = pinned.expectedExportHash
  axiomReportHash : entry.axiomReportHash = pinned.expectedAxiomReportHash
  certificateHash : entry.certificateHash = pinned.expectedCertificateHash

/-- The entry carries what the manifest pins for the external import. -/
structure ExternalEntryOf (pinned : PackageExternalImport) (entry : PackageLockEntry) :
    Prop where
  origin : entry.origin = .external
  module : entry.module = pinned.module
  package : entry.package = some pinned.package
  version : entry.version = some pinned.version
  certificate : entry.certificate = pinned.certificate
  exportHash : entry.exportHash = pinned.exportHash
  certificateHash : entry.certificateHash = pinned.certificateHash

/-- The import names the entry and records its hashes. -/
structure ImportOf (lockImport : PackageLockImport) (entry : PackageLockEntry) : Prop where
  module : entry.module = lockImport.module
  exportHash : entry.exportHash = lockImport.exportHash
  certificateHash : entry.certificateHash = lockImport.certificateHash

def PackageLockManifest.Imports (lock : PackageLockManifest) (owner imported : Name) : Prop :=
  ∃ entry ∈ lock.entries, entry.module = owner ∧
    ∃ lockImport ∈ entry.imports, lockImport.module = imported

/-- A module of the manifest or one of its external imports leads to the name. -/
def Reachable (manifest : PackageManifest) (lock : PackageLockManifest) (name : Name) : Prop :=
  ∃ root, (root ∈ manifest.modules.map (·.module) ∨
      root ∈ manifest.topLevelImports.map (·.module)) ∧
    Relation.ReflTransGen lock.Imports root name

structure Accountable (manifest : PackageManifest) (lock : PackageLockManifest) : Prop where
  package : lock.package = manifest.package
  version : lock.version = manifest.version
  distinct : (lock.entries.map (·.module)).Nodup
  modules : ∀ module ∈ manifest.modules, ∃ entry ∈ lock.entries, LocalEntryOf module entry
  locals : ∀ entry ∈ lock.entries, entry.origin = .local →
    ∃ module ∈ manifest.modules, LocalEntryOf module entry
  externals : ∀ manifestImport ∈ manifest.topLevelImports,
    ∃ entry ∈ lock.entries, ExternalEntryOf manifestImport entry
  reachable : ∀ entry ∈ lock.entries, Reachable manifest lock entry.module
  imports : ∀ entry ∈ lock.entries, ∀ lockImport ∈ entry.imports,
    ∃ imported ∈ lock.entries, ImportOf lockImport imported

/-! ### Loops and lookups -/

theorem forEachIndexed_mem {ε α : Type} {items : List α} {step : Nat → α → Except ε Unit}
    {u : Unit} (h : forEachIndexed items step = .ok u) {item : α} (mem : item ∈ items) :
    ∃ index, step index item = .ok () := by
  obtain ⟨index, hindex⟩ := List.mem_iff_getElem?.mp mem
  have here : (item, index) ∈ items.zipIdx := List.mk_mem_zipIdx_iff_getElem?.mpr hindex
  exact ⟨index, Result.forEach_eq_ok.mp h _ here⟩

theorem inModule_eq_ok {α : Type} {owner : Name} {result : PackageLockResult α} {a : α} :
    inModule owner result = .ok a ↔ result = .ok a := by
  cases result <;> simp [inModule, Except.mapError]

variable {entries : List PackageLockEntry} {entry : PackageLockEntry}

theorem lockEntryAt_eq_some {name : Name}
    {index : Nat} (h : lockEntryAt entries name = some (entry, index)) :
    entries[index]? = some entry ∧ entry.module = name := by
  simp only [lockEntryAt, Option.bind_eq_some_iff, Option.map_eq_some_iff, Prod.mk.injEq] at h
  obtain ⟨_, hindex, found, hfound, rfl, rfl⟩ := h
  refine ⟨hfound, ?_⟩
  have named := indexOfName?_eq_some hindex
  simpa [List.getElem?_map, hfound] using named

theorem checkHash_eq_ok {expected actual : PackageHash}
    {error : String → String → PackageLockError} {u : Unit} :
    checkHash expected actual error = .ok u ↔ expected = actual := by
  simp [checkHash]

/-! ### The normal form -/

variable {lock : PackageLockManifest}

theorem mem_normalized :
    entry ∈ (normalizedPackageLock lock).entries ↔
      ∃ original ∈ lock.entries, sortedImports original = entry := by
  simp [normalizedPackageLock]

variable {lockImport : PackageLockImport}

theorem mem_sortedImports :
    lockImport ∈ (sortedImports entry).imports ↔ lockImport ∈ entry.imports := by
  simp [sortedImports]

/-! ### What validation of the lock establishes -/

theorem validateLockEntries_nodup {entries : List (PackageLockEntry × Nat)}
    {seen last : SeenEntries} (h : Result.foldEach entries seen validateLockEntry = .ok last) :
    (entries.map (·.1.module)).Nodup ∧ ∀ indexed ∈ entries, indexed.1.module ∉ seen.modules := by
  induction entries generalizing seen with
  | nil => simp
  | cons first rest ih =>
    simp only [Result.foldEach, Result.bind_eq_ok] at h
    obtain ⟨next, hfirst, hrest⟩ := h
    simp only [validateLockEntry, Result.bind_eq_ok, Result.ensure_eq_ok, decide_eq_true_eq,
      Except.ok.injEq] at hfirst
    obtain ⟨_, _, _, _, _, fresh, _, _, _, _, _, _, rfl⟩ := hfirst
    obtain ⟨distinct, unseen⟩ := ih hrest
    refine ⟨List.nodup_cons.mpr ⟨fun mem => ?_, distinct⟩, fun indexed mem => ?_⟩
    · obtain ⟨other, hother, same⟩ := List.mem_map.mp mem
      exact unseen other hother (by simp [same])
    · rcases List.mem_cons.mp mem with rfl | mem
      · exact fresh
      · exact fun old => unseen indexed mem (List.mem_cons_of_mem _ old)

theorem validatePackageLockManifest_nodup {u : Unit}
    (h : validatePackageLockManifest lock = .ok u) : (lock.entries.map (·.module)).Nodup := by
  simp only [validatePackageLockManifest, Result.bind_eq_ok] at h
  obtain ⟨_, _, _, _, _, _, _, _, _, hentries, _⟩ := h
  have distinct := (validateLockEntries_nodup hentries).1
  have names := congrArg (List.map PackageLockEntry.module) (List.zipIdx_map_fst 0 lock.entries)
  rw [List.map_map] at names
  exact names ▸ distinct

theorem resolveLockImport_eq_ok {path : String} {resolved : PackageLockResolvedImport}
    (h : resolveLockImport entries entry path lockImport = .ok resolved) :
    ∃ imported, entries[resolved.entryIndex]? = some imported ∧ ImportOf lockImport imported := by
  simp only [resolveLockImport, inModule_eq_ok, Result.bind_eq_ok, Result.okOr_eq_ok,
    checkLockImportExportHash, checkLockImportCertificateHash, checkHash_eq_ok,
    Except.ok.injEq] at h
  obtain ⟨⟨imported, index⟩, found, _, _, _, exported, _, certified, rfl⟩ := h
  obtain ⟨here, named⟩ := lockEntryAt_eq_some found
  exact ⟨imported, here, named, exported, certified⟩

variable {resolved : List (List PackageLockResolvedImport)}

theorem resolveLockEntryImports_imports (h : resolveLockEntryImports entries = .ok resolved)
    (mem : entry ∈ entries) (himport : lockImport ∈ entry.imports) :
    ∃ imported ∈ entries, ImportOf lockImport imported := by
  obtain ⟨index, hindex⟩ := List.mem_iff_getElem?.mp mem
  obtain ⟨imports, _, himports⟩ := Result.collect_mem_left h
    (List.mk_mem_zipIdx_iff_getElem?.mpr hindex)
  obtain ⟨place, hplace⟩ := List.mem_iff_getElem?.mp himport
  obtain ⟨one, _, hone⟩ := Result.collect_mem_left himports
    (List.mk_mem_zipIdx_iff_getElem?.mpr hplace)
  obtain ⟨imported, here, importOf⟩ := resolveLockImport_eq_ok hone
  exact ⟨imported, List.mem_of_getElem? here, importOf⟩

theorem resolveLockEntryImports_length
    (h : resolveLockEntryImports entries = .ok resolved) : resolved.length = entries.length := by
  simpa using (Result.collect_eq_ok.mp h).length_eq.symm

/-! ### The verification order -/

/-- The edges that the order is computed from. -/
def importEdges (resolved : List (List PackageLockResolvedImport)) : DepthFirst.Graph :=
  resolved.map fun imports => imports.map fun resolvedImport => some resolvedImport.entryIndex

theorem mem_importEdges (h : resolveLockEntryImports entries = .ok resolved) {node target : Nat}
    (edge : some target ∈ (importEdges resolved).edges node) :
    ∃ imported, entries[target]? = some imported := by
  simp only [importEdges, DepthFirst.Graph.edges, List.getElem?_map] at edge
  cases himports : resolved[node]? with
  | none => simp [himports] at edge
  | some imports =>
    simp only [himports, Option.map_some, Option.getD_some, List.mem_map, Option.some.injEq] at edge
    obtain ⟨resolvedImport, mem, rfl⟩ := edge
    obtain ⟨_, _, hentry⟩ := Result.collect_mem_right h (List.mem_of_getElem? himports)
    obtain ⟨_, _, himport⟩ := Result.collect_mem_right hentry mem
    obtain ⟨imported, here, _⟩ := resolveLockImport_eq_ok himport
    exact ⟨imported, here⟩

/-- The edges of an entry lead to all entries it imports. -/
theorem importEdges_complete (h : resolveLockEntryImports entries = .ok resolved) {node : Nat}
    (hentry : entries[node]? = some entry) (mem : lockImport ∈ entry.imports) :
    ∃ target imported, some target ∈ (importEdges resolved).edges node ∧
      entries[target]? = some imported ∧ imported.module = lockImport.module := by
  have bound : node < resolved.length :=
    resolveLockEntryImports_length h ▸ (List.getElem?_eq_some_iff.mp hentry).1
  have himports := Result.collect_getElem? h (a := (entry, node)) (b := resolved[node])
    (by simp [List.getElem?_zipIdx, hentry]) (List.getElem?_eq_getElem bound)
  obtain ⟨place, hplace⟩ := List.mem_iff_getElem?.mp mem
  obtain ⟨one, hone, himport⟩ := Result.collect_mem_left himports
    (List.mk_mem_zipIdx_iff_getElem?.mpr hplace)
  obtain ⟨imported, here, importOf⟩ := resolveLockImport_eq_ok himport
  refine ⟨one.entryIndex, imported, ?_, here, importOf.module⟩
  simp only [importEdges, DepthFirst.Graph.edges, List.getElem?_map,
    List.getElem?_eq_getElem bound, Option.map_some, Option.getD_some, List.mem_map]
  exact ⟨one, hone, rfl⟩

theorem lockEntryName_eq {index : Nat}
    (h : entries[index]? = some entry) : lockEntryName entries index = entry.module := by
  simp [lockEntryName, h]

theorem map_lockEntryName (entries : List PackageLockEntry) :
    (List.range entries.length).map (lockEntryName entries) = entries.map (·.module) := by
  apply List.ext_getElem
  · simp
  · intro index _ bound
    have inEntries : index < entries.length := by simpa using bound
    simp [lockEntryName_eq (List.getElem?_eq_getElem inEntries)]

/-- The verification order lists every entry once, after the entries it imports. -/
theorem graph_order {product : NormalizedPackageLockGraphBuild}
    (h : buildNormalizedPackageLockGraph lock = .ok product) :
    product.graph.topologicalOrder.Perm (lock.entries.map (·.module)) ∧
      ∀ before name after, product.graph.topologicalOrder = before ++ name :: after →
        ∀ imported, lock.Imports name imported → imported ∈ before := by
  simp only [buildNormalizedPackageLockGraph, Result.bind_eq_ok, Except.ok.injEq] at h
  obtain ⟨_, hlock, resolved, hresolved, order, horder, rfl⟩ := h
  have distinct := validatePackageLockManifest_nodup hlock
  have length := resolveLockEntryImports_length hresolved
  generalize hentries : (normalizedPackageLock lock).entries = entries at *
  have names : (entries.map (·.module)).Perm (lock.entries.map (·.module)) := by
    have sorted := (List.perm_insertionSort
      (fun left right : PackageLockEntry => nameLe left.module right.module) lock.entries).map
        (fun entry : PackageLockEntry => entry.module)
    rw [← hentries, normalizedPackageLock, List.map_map]
    exact sorted
  unfold lockTopologicalOrder at horder
  split at horder
  case h_2 => cases horder
  case h_1 nodes hnodes =>
    cases horder
    have inRange : (importEdges resolved).InRange := by
      intro node target edge
      obtain ⟨imported, here⟩ := mem_importEdges hresolved edge
      have bound := (List.getElem?_eq_some_iff.mp here).1
      simpa [importEdges, length] using bound
    obtain ⟨nodup, complete, settled⟩ := DepthFirst.order_spec inRange hnodes
    have all : nodes.Perm (List.range entries.length) :=
      (List.perm_ext_iff_of_nodup nodup List.nodup_range).mpr fun node => by
        rw [complete node, List.mem_range]
        simp [importEdges, length]
    constructor
    · have listed := all.map (lockEntryName entries)
      rw [map_lockEntryName] at listed
      exact listed.trans names
    · rintro before name after split imported ⟨original, horiginal, rfl, lockImport, mem, rfl⟩
      obtain ⟨nodesBefore, rest, rfl, rfl, hrest⟩ := List.map_eq_append_iff.mp split
      obtain ⟨node, nodesAfter, rfl, hnode, rfl⟩ := List.map_eq_cons_iff.mp hrest
      have bound : node < entries.length := by
        have := (complete node).mp (by simp)
        simpa [importEdges, length] using this
      -- The entry at the node is the normal form of the importing entry.
      have inNormal : entries[node] ∈ (normalizedPackageLock lock).entries := by
        rw [hentries]
        exact List.getElem_mem bound
      obtain ⟨other, hother, same⟩ := mem_normalized.mp inNormal
      have sameName : other.module = original.module := by
        rw [← hnode, lockEntryName_eq (List.getElem?_eq_getElem bound), ← same]
        rfl
      obtain rfl := List.inj_on_of_nodup_map distinct hother horiginal sameName
      have importsIt : lockImport ∈ entries[node].imports := by
        rw [← same]
        exact mem_sortedImports.mpr mem
      obtain ⟨target, reached, edge, here, reachedName⟩ :=
        importEdges_complete hresolved (List.getElem?_eq_getElem bound) importsIt
      rw [← reachedName, ← lockEntryName_eq here]
      exact List.mem_map_of_mem (settled nodesBefore node nodesAfter rfl target edge)

/-! ### What the comparison with the manifest establishes -/

theorem validateManifestModuleEntry_eq_ok {index : Nat} {module : PackageModule} {u : Unit}
    (h : validateManifestModuleEntry entries index module = .ok u) :
    ∃ found, lockEntryAt entries module.module = some found ∧ found.1.origin = .local ∧
      found.1.certificate = module.certificate := by
  simp only [validateManifestModuleEntry, Result.bind_eq_ok, Result.okOr_eq_ok,
    Result.ensure_eq_ok, decide_eq_true_eq] at h
  obtain ⟨found, hfound, _, origin, certificate⟩ := h
  exact ⟨found, hfound, origin, certificate⟩

theorem validateManifestImportEntry_eq_ok {index : Nat}
    {manifestImport : PackageExternalImport} {u : Unit}
    (h : validateManifestImportEntry entries index manifestImport = .ok u) :
    ∃ entry ∈ entries, ExternalEntryOf manifestImport entry := by
  simp only [validateManifestImportEntry, Result.bind_eq_ok, Result.okOr_eq_ok,
    Result.ensure_eq_ok, decide_eq_true_eq, checkExportHash, checkCertificateHash,
    checkHash_eq_ok] at h
  obtain ⟨⟨entry, place⟩, found, _, origin, _, package, _, version, _, certificate, _, exported,
    certified⟩ := h
  obtain ⟨here, named⟩ := lockEntryAt_eq_some found
  exact ⟨entry, List.mem_of_getElem? here, origin, named, package, version, certificate,
    exported.symm, certified.symm⟩

theorem validateLocalManifestHashesOf_eq_ok
    {module : PackageModule} {found : PackageLockEntry × Nat} {u : Unit}
    (h : validateLocalManifestHashesOf entries module = .ok u)
    (hfound : lockEntryAt entries module.module = some found) :
    found.1.certificateFileHash = module.expectedCertificateFileHash ∧
      found.1.exportHash = module.expectedExportHash ∧
      found.1.axiomReportHash = module.expectedAxiomReportHash ∧
      found.1.certificateHash = module.expectedCertificateHash := by
  simp only [validateLocalManifestHashesOf, hfound, Result.bind_eq_ok, checkCertificateFileHash,
    checkExportHash, checkAxiomReportHash, checkCertificateHash, checkHash_eq_ok] at h
  obtain ⟨_, fileHash, _, exported, _, axiomReport, certified⟩ := h
  exact ⟨fileHash.symm, exported.symm, axiomReport.symm, certified.symm⟩

/-- What the checks of an accepted lock establish. -/
structure Accepted (manifest : PackageManifest) (lock : PackageLockManifest) : Prop where
  distinct : (lock.entries.map (·.module)).Nodup
  modules : ∀ module ∈ manifest.modules, ∃ entry ∈ lock.entries, LocalEntryOf module entry
  externals : ∀ manifestImport ∈ manifest.topLevelImports,
    ∃ entry ∈ lock.entries, ExternalEntryOf manifestImport entry
  imports : ∀ entry ∈ lock.entries, ∀ lockImport ∈ entry.imports,
    ∃ imported ∈ lock.entries, ImportOf lockImport imported

theorem accepted_of_ok {validated : ValidatedPackageManifest} {graph : PackageLockGraph}
    (h : validatePackageLockAgainstManifestGraph validated lock = .ok graph) :
    Accepted validated.manifest lock := by
  simp only [validatePackageLockAgainstManifestGraph,
    validatePackageLockAgainstManifestGraphProduct, buildNormalizedPackageLockGraph,
    validateManifestLockEntries, validateLocalManifestHashes, Result.bind_eq_ok, if_true,
    Except.ok.injEq] at h
  obtain ⟨_, ⟨_, ⟨_, hlock, resolved, hresolved, _, _, rfl⟩, _, ⟨_, hmodules, himports⟩, _, _, _,
    hhashes, rfl⟩, rfl⟩ := h
  constructor
  case distinct => exact validatePackageLockManifest_nodup hlock
  case modules =>
    intro module mem
    obtain ⟨_, hmodule⟩ := forEachIndexed_mem hmodules mem
    obtain ⟨⟨entry, place⟩, hfound, origin, certificate⟩ :=
      validateManifestModuleEntry_eq_ok hmodule
    obtain ⟨fileHash, exported, axiomReport, certified⟩ :=
      validateLocalManifestHashesOf_eq_ok (Result.forEach_eq_ok.mp hhashes module mem) hfound
    obtain ⟨here, named⟩ := lockEntryAt_eq_some hfound
    obtain ⟨original, horiginal, rfl⟩ := mem_normalized.mp (List.mem_of_getElem? here)
    exact ⟨original, horiginal, origin, named, certificate, fileHash, exported, axiomReport,
      certified⟩
  case externals =>
    intro manifestImport mem
    obtain ⟨_, himport⟩ := forEachIndexed_mem himports mem
    obtain ⟨entry, hentry, external⟩ := validateManifestImportEntry_eq_ok himport
    obtain ⟨original, horiginal, rfl⟩ := mem_normalized.mp hentry
    exact ⟨original, horiginal, external.1, external.2, external.3, external.4, external.5,
      external.6, external.7⟩
  case imports =>
    intro entry mem lockImport himport
    obtain ⟨imported, himported, importOf⟩ := resolveLockEntryImports_imports hresolved
      (mem_normalized.mpr ⟨entry, mem, rfl⟩) (mem_sortedImports.mpr himport)
    obtain ⟨original, horiginal, rfl⟩ := mem_normalized.mp himported
    exact ⟨original, horiginal, importOf.1, importOf.2, importOf.3⟩

/-! ### Accountable locks -/

/-- An accepted lock accounts for its manifest exactly when it has the manifest's identity, no
local entry besides the manifest's modules, and no external entry out of the manifest's
reach. -/
theorem accountable_iff {validated : ValidatedPackageManifest} {lock : PackageLockManifest}
    {graph : PackageLockGraph}
    (accepted : validatePackageLockAgainstManifestGraph validated lock = .ok graph) :
    Accountable validated.manifest lock ↔
      lock.package = validated.manifest.package ∧ lock.version = validated.manifest.version ∧
        (∀ entry ∈ lock.entries, entry.origin = .local →
          entry.module ∈ validated.manifest.modules.map (·.module)) ∧
        ∀ entry ∈ lock.entries, entry.origin = .external →
          Reachable validated.manifest lock entry.module := by
  have checked := accepted_of_ok accepted
  constructor
  · intro accountable
    refine ⟨accountable.package, accountable.version, fun entry mem origin => ?_,
      fun entry mem _ => accountable.reachable entry mem⟩
    obtain ⟨module, hmodule, pinned⟩ := accountable.locals entry mem origin
    exact List.mem_map.mpr ⟨module, hmodule, pinned.module.symm⟩
  · rintro ⟨package, version, locals, externals⟩
    constructor
    case package => exact package
    case version => exact version
    case distinct => exact checked.distinct
    case modules => exact checked.modules
    case locals =>
      intro entry mem origin
      obtain ⟨module, hmodule, named⟩ := List.mem_map.mp (locals entry mem origin)
      obtain ⟨found, hfound, pinned⟩ := checked.modules module hmodule
      -- Two entries of one module are the same entry.
      have same : entry = found := List.inj_on_of_nodup_map checked.distinct mem hfound
        (named.symm.trans pinned.module.symm)
      exact ⟨module, hmodule, same ▸ pinned⟩
    case externals => exact checked.externals
    case reachable =>
      intro entry mem
      cases origin : entry.origin with
      | «local» => exact ⟨entry.module, .inl (locals entry mem origin), .refl⟩
      | external => exact externals entry mem origin
    case imports => exact checked.imports

/-! ### A package and two of its locks -/

def digest (byte : UInt8) : PackageHash := Vector.replicate 32 byte

def appManifest : PackageManifest :=
  { schema := packageManifestSchema
    package := ⟨"app"⟩
    version := ⟨"0.1.0"⟩
    coreSpec := coreSpecV01
    kernelProfile := kernelProfileV01
    certificateFormat := certificateFormatCanonicalV01
    checkerProfile := checkerProfileReferenceV01
    policy := { allowCustomAxioms := false, allowedAxioms := [] }
    modules :=
      [{ module := ⟨["App"]⟩
         source := ⟨"src/app.npa"⟩
         certificate := ⟨"certs/app.npcert"⟩
         imports := [⟨["Base"]⟩]
         expectedCertificateFileHash := digest 1
         expectedExportHash := digest 2
         expectedAxiomReportHash := digest 3
         expectedCertificateHash := digest 4
         metaPath := none
         replay := none
         inductives := none
         definitions := none
         theorems := none
         axioms := none }]
    imports := some
      [{ module := ⟨["Base"]⟩
         package := ⟨"base"⟩
         version := ⟨"1.0.0"⟩
         certificate := ⟨"vendor/base.npcert"⟩
         exportHash := digest 5
         certificateHash := digest 6 }] }

def app : ValidatedPackageManifest where
  manifest := appManifest
  graph :=
    { resolvedModuleImports :=
        [[{ module := ⟨["Base"]⟩
            kind := .external 0
            exportHash := digest 5
            certificateHash := digest 6 }]]
      topologicalOrder := [0] }
  validated := Result.ok_of_toOption (by decide +kernel)

def appEntry : PackageLockEntry :=
  { module := ⟨["App"]⟩
    origin := .local
    certificate := ⟨"certs/app.npcert"⟩
    certificateFileHash := digest 1
    exportHash := digest 2
    axiomReportHash := digest 3
    certificateHash := digest 4
    imports := [{ module := ⟨["Base"]⟩, exportHash := digest 5, certificateHash := digest 6 }]
    package := none
    version := none }

def baseEntry : PackageLockEntry :=
  { module := ⟨["Base"]⟩
    origin := .external
    certificate := ⟨"vendor/base.npcert"⟩
    certificateFileHash := digest 7
    exportHash := digest 5
    axiomReportHash := digest 8
    certificateHash := digest 6
    imports := [{ module := ⟨["Core"]⟩, exportHash := digest 9, certificateHash := digest 10 }]
    package := some ⟨"base"⟩
    version := some ⟨"1.0.0"⟩ }

/-- Not imported by the manifest, only by `Base`. -/
def coreEntry : PackageLockEntry :=
  { module := ⟨["Core"]⟩
    origin := .external
    certificate := ⟨"vendor/core.npcert"⟩
    certificateFileHash := digest 11
    exportHash := digest 9
    axiomReportHash := digest 12
    certificateHash := digest 10
    imports := []
    package := some ⟨"core"⟩
    version := some ⟨"1.2.0"⟩ }

def appLock : PackageLockManifest :=
  { schema := packageLockSchema
    package := ⟨"app"⟩
    version := ⟨"0.1.0"⟩
    manifest := { path := ⟨"npa-package.toml"⟩, fileHash := digest 13 }
    entries := [appEntry, baseEntry, coreEntry] }

/-- A lock with the identity of another package and with a local entry of its own. -/
def foreignLock : PackageLockManifest :=
  { appLock with
    package := ⟨"other"⟩
    version := ⟨"9.9.9"⟩
    entries := appLock.entries ++
      [{ appEntry with
          module := ⟨["Stray"]⟩
          certificate := ⟨"certs/stray.npcert"⟩
          imports := [] }] }

def appGraph (stray : List Name) : PackageLockGraph :=
  { resolvedEntryImports :=
      [[{ module := ⟨["Base"]⟩, entryIndex := 1, exportHash := digest 5
          certificateHash := digest 6 }],
       [{ module := ⟨["Core"]⟩, entryIndex := 2, exportHash := digest 9
          certificateHash := digest 10 }],
       []] ++ stray.map fun _ => []
    topologicalOrder := [⟨["Core"]⟩, ⟨["Base"]⟩, ⟨["App"]⟩] ++ stray }

theorem accountable_iff_at_app : Accountable app.manifest appLock := by
  have accepted : validatePackageLockAgainstManifestGraph app appLock = .ok (appGraph []) :=
    Result.ok_of_toOption (by decide +kernel)
  have base : Reachable app.manifest appLock ⟨["Base"]⟩ :=
    ⟨_, .inr (List.mem_singleton_self _), .refl⟩
  have core : Reachable app.manifest appLock ⟨["Core"]⟩ :=
    ⟨_, .inr (List.mem_singleton_self _), .single ⟨baseEntry, by simp [appLock], rfl, _,
      List.mem_singleton_self _, rfl⟩⟩
  refine (accountable_iff accepted).mpr ⟨rfl, rfl, by decide +kernel, fun entry mem origin => ?_⟩
  simp only [appLock, List.mem_cons, List.not_mem_nil, or_false] at mem
  obtain rfl | rfl | rfl := mem
  · cases origin
  · exact base
  · exact core

theorem foreignLock_accepted_unaccountable :
    validatePackageLockAgainstManifestGraph app foreignLock = .ok (appGraph [⟨["Stray"]⟩]) ∧
      ¬ Accountable app.manifest foreignLock := by
  refine ⟨Result.ok_of_toOption (by decide +kernel), fun accountable => ?_⟩
  exact absurd accountable.package (by decide)

end NpaCore.Package
