import NpaCore.Lib.OrderedMap
import NpaCore.Package.LockGraphExact

/-!
# The modules that an audit selects

The selections of `npa-package/src/audit_selection.rs`: the modules to audit after changes of
a package lock, and the modules that a cache-aware pass must check live. Planning counters are
left out, and so are the wrappers that build the index first.
-/

namespace NpaCore.Package

open NpaCore.OrderedMap
open NpaCore.Wire (Name)

/-! ### Marks -/

/-- Marks, and the epoch in which an entry counts as marked. -/
structure EntryEpochMarks where
  marks : List Nat
  epoch : Nat

namespace EntryEpochMarks

def new (entryCount : Nat) : EntryEpochMarks :=
  { marks := List.replicate entryCount 0, epoch := 0 }

def beginOrigin (visited : EntryEpochMarks) : EntryEpochMarks :=
  { visited with epoch := visited.epoch + 1 }

/-- What `mark_new` sees and sets; a number that is no entry counts as marked. -/
def marking : Marking Nat EntryEpochMarks where
  isMarked visited entry := (visited.marks[entry]?).all (· == visited.epoch)
  mark visited entry := { visited with marks := visited.marks.set entry visited.epoch }
  isMarked_mark visited entry other := by
    rw [List.getElem?_set]
    by_cases same : entry = other
    · subst same
      by_cases bound : entry < visited.marks.length
      · simp [bound]
      · simp [bound]
    · simp [same, Ne.symm same]

end EntryEpochMarks

/-- The walk along dependents, with epoch marks. -/
def PackageLockGraphIndex.reverse (index : PackageLockGraphIndex) : Flood Nat EntryEpochMarks where
  toMarking := EntryEpochMarks.marking
  toDiscipline := .stack Nat
  next entry := index.reverseDependenciesByEntry[entry]?.getD []
  targets := index.reverseDependenciesByEntry.flatten.toFinset
  next_targets := by
    intro entry dependent mem
    rw [List.mem_toFinset, List.mem_flatten]
    cases here : index.reverseDependenciesByEntry[entry]? with
    | none => simp [here] at mem
    | some dependents =>
      rw [here] at mem
      exact ⟨dependents, List.mem_of_getElem? here, mem⟩

/-- A new origin: its dependents are entered, then worked on until none waits. -/
def PackageLockGraphIndex.workOnDependents {R : Type} (index : PackageLockGraphIndex)
    (act : R → Name → R) (result : R) (visited : EntryEpochMarks) (entry : Nat) :
    R × EntryEpochMarks :=
  index.reverse.work (fun result dependent => act result (nameAt index.moduleByEntry dependent))
    result (index.reverse.look entry { pending := [], marks := visited.beginOrigin })

/-! ### Errors -/

inductive PackageArtifactErrorKind where
  | summary
  deriving DecidableEq, Repr

inductive PackageArtifactErrorReason where
  | summaryMismatch
  deriving DecidableEq, Repr

structure PackageArtifactError where
  kind : PackageArtifactErrorKind
  path : String
  field : Option String
  reasonCode : PackageArtifactErrorReason
  expectedValue : Option String
  actualValue : Option String
  deriving DecidableEq, Repr

abbrev PackageArtifactResult := Except PackageArtifactError

def PackageArtifactError.summaryMismatch (path field expected actual : String) :
    PackageArtifactError :=
  ⟨.summary, path, some field, .summaryMismatch, some expected, some actual⟩

/-! ### Changes and reasons -/

inductive PackageAuditChangeKind where
  | certificateHashChanged
  | exportHashChanged
  | axiomReportHashChanged
  | certificateFileHashChanged
  | policyChanged
  | checkerIdentityChanged
  | coreSpecChanged
  | certificateFormatChanged
  deriving DecidableEq, Repr

/-- The derived order: that of the variants. -/
def PackageAuditChangeKind.cmp : PackageAuditChangeKind → PackageAuditChangeKind → Ordering :=
  compareOn PackageAuditChangeKind.ctorIdx

structure PackageAuditChangedModule where
  module : Name
  changes : List PackageAuditChangeKind
  deriving DecidableEq, Repr

inductive PackageAuditSelectionReason where
  | explicitlyChanged
  | reverseDependencyOfExportChange (dependency : Name)
  | requiredByPolicyChange
  | requiredByCheckerIdentityChange
  | requiredByCoreSpecChange
  | requiredByCertificateFormatChange
  deriving DecidableEq, Repr

def PackageAuditSelectionReason.dependencyComponents : PackageAuditSelectionReason → List String
  | .reverseDependencyOfExportChange dependency => dependency.components
  | _ => []

/-- The derived order: that of the variants, and then that of the dependencies. -/
def PackageAuditSelectionReason.cmp :
    PackageAuditSelectionReason → PackageAuditSelectionReason → Ordering :=
  compareLex (compareOn PackageAuditSelectionReason.ctorIdx)
    (compareOn PackageAuditSelectionReason.dependencyComponents)

structure PackageAuditSelectedModule where
  module : Name
  reasons : List PackageAuditSelectionReason
  deriving DecidableEq, Repr

structure PackageAuditSelection where
  modules : List PackageAuditSelectedModule
  skippedStableExportDependents : List Name
  packageAxiomReportCheckRequired : Bool
  packageTheoremIndexCheckRequired : Bool
  proofEvidence : Bool
  deriving DecidableEq, Repr

/-! ### Audit selection -/

/-- The derived order of names. -/
def nameCmp : Name → Name → Ordering := compareOn Name.components

def normalizeChangedModules (changed : List PackageAuditChangedModule) :
    List PackageAuditChangedModule :=
  let merged := changed.foldl (fun merged changedModule =>
    extendAt nameCmp PackageAuditChangeKind.cmp changedModule.module changedModule.changes merged) []
  merged.map fun entry => { module := entry.1, changes := entry.2 }

def validateChangedModules (entryModules : List Name) (changed : List PackageAuditChangedModule) :
    PackageArtifactResult Unit :=
  Result.forEach changed.zipIdx fun (changedModule, index) => do
    Result.ensure (decide (changedModule.module ∈ entryModules))
      (.summaryMismatch s!"changed[{index}].module" "module" "package lock module"
        (asDotted changedModule.module))
    Result.ensure (!changedModule.changes.isEmpty)
      (.summaryMismatch s!"changed[{index}].changes" "changes" "at least one change kind" "[]")

def changedContainsAny (changed : List PackageAuditChangedModule) (kind : PackageAuditChangeKind) :
    Bool :=
  changed.any fun changedModule => changedModule.changes.contains kind

abbrev SelectedReasons := List (Name × List PackageAuditSelectionReason)

def selectReason (selected : SelectedReasons) (module : Name)
    (reason : PackageAuditSelectionReason) : SelectedReasons :=
  extendAt nameCmp PackageAuditSelectionReason.cmp module [reason] selected

def selectAll (topologicalOrder : List Name) (selected : SelectedReasons)
    (reason : PackageAuditSelectionReason) : SelectedReasons :=
  topologicalOrder.foldl (fun selected module => selectReason selected module reason) selected

/-- The changes that require all modules, in the order in which they are looked for. -/
def globalChanges : List (PackageAuditChangeKind × PackageAuditSelectionReason) :=
  [(.policyChanged, .requiredByPolicyChange),
    (.checkerIdentityChanged, .requiredByCheckerIdentityChange),
    (.coreSpecChanged, .requiredByCoreSpecChange),
    (.certificateFormatChanged, .requiredByCertificateFormatChange)]

def selectGlobal (topologicalOrder : List Name) (changed : List PackageAuditChangedModule)
    (selected : SelectedReasons) : SelectedReasons :=
  globalChanges.foldl (fun selected (kind, reason) =>
    if changedContainsAny changed kind then selectAll topologicalOrder selected reason
    else selected) selected

def indexedReverseDependencyClosure (indexed : IndexedPackageLockGraph) (module : Name)
    (visited : EntryEpochMarks) : List Name × EntryEpochMarks :=
  match indexed.index.entryByModule module with
  | none => ([], visited)
  | some entry =>
    indexed.index.workOnDependents (fun closure dependent => insertKey nameCmp dependent closure)
      [] visited entry

structure SelectionState where
  selected : SelectedReasons
  skipped : List Name
  axiomArtifactChecksRequired : Bool
  reverseMarks : EntryEpochMarks

/-- What one changed module selects or skips. -/
def selectChangedModule (indexed : IndexedPackageLockGraph) (state : SelectionState)
    (changedModule : PackageAuditChangedModule) : SelectionState :=
  let changes := changedModule.changes
  let state :=
    { state with
      selected := selectReason state.selected changedModule.module .explicitlyChanged
      axiomArtifactChecksRequired :=
        state.axiomArtifactChecksRequired || changes.contains .axiomReportHashChanged }
  if changes.contains .exportHashChanged then
    let (closure, reverseMarks) :=
      indexedReverseDependencyClosure indexed changedModule.module state.reverseMarks
    { state with
      selected := closure.foldl (fun selected dependent => selectReason selected dependent
        (.reverseDependencyOfExportChange changedModule.module)) state.selected
      reverseMarks }
  else if changes.contains .certificateHashChanged ||
      changes.contains .certificateFileHashChanged || changes.contains .axiomReportHashChanged then
    let (closure, reverseMarks) :=
      indexedReverseDependencyClosure indexed changedModule.module state.reverseMarks
    { state with
      skipped := closure.foldl (fun skipped dependent => insertKey nameCmp dependent skipped)
        state.skipped
      reverseMarks }
  else state

def selectPackageAuditModulesIndexed (indexed : IndexedPackageLockGraph)
    (changed : List PackageAuditChangedModule) : PackageArtifactResult PackageAuditSelection := do
  let entryModules := indexed.lock.entries.map (·.module)
  let topologicalOrder := indexed.graph.topologicalOrder
  let normalizedChanged := normalizeChangedModules changed
  validateChangedModules entryModules normalizedChanged
  let state := normalizedChanged.foldl (selectChangedModule indexed)
    { selected := selectGlobal topologicalOrder normalizedChanged []
      skipped := []
      axiomArtifactChecksRequired := false
      reverseMarks := .new indexed.lock.entries.length }
  .ok
    { modules := (takeEach nameCmp topologicalOrder state.selected).map fun entry =>
        { module := entry.1, reasons := entry.2 }
      skippedStableExportDependents := state.skipped.filter fun module =>
        (get? nameCmp module state.selected).isNone
      packageAxiomReportCheckRequired := state.axiomArtifactChecksRequired
      packageTheoremIndexCheckRequired := state.axiomArtifactChecksRequired
      proofEvidence := false }

/-! ### Live selection -/

inductive PackageCacheAwareLiveReason where
  | dirty
  | reverseDependencyOfDirty (dependency : Name)
  deriving DecidableEq, Repr

def PackageCacheAwareLiveReason.dependencyComponents : PackageCacheAwareLiveReason → List String
  | .dirty => []
  | .reverseDependencyOfDirty dependency => dependency.components

/-- The derived order: that of the variants, and then that of the dependencies. -/
def PackageCacheAwareLiveReason.cmp :
    PackageCacheAwareLiveReason → PackageCacheAwareLiveReason → Ordering :=
  compareLex (compareOn PackageCacheAwareLiveReason.ctorIdx)
    (compareOn PackageCacheAwareLiveReason.dependencyComponents)

structure PackageCacheAwareLiveModule where
  module : Name
  reasons : List PackageCacheAwareLiveReason
  deriving DecidableEq, Repr

structure PackageCacheAwareLiveSelection where
  modules : List PackageCacheAwareLiveModule
  proofEvidence : Bool
  deriving DecidableEq, Repr

abbrev LiveReasons := List (Name × List PackageCacheAwareLiveReason)

def insertLiveReason (selected : LiveReasons) (module : Name)
    (reason : PackageCacheAwareLiveReason) : LiveReasons :=
  extendAt nameCmp PackageCacheAwareLiveReason.cmp module [reason] selected

/-- One dirty module, which the index is known to have, and its dependents. -/
def selectDirtyModule (indexed : IndexedPackageLockGraph)
    (state : LiveReasons × EntryEpochMarks) (dirty : Name) : LiveReasons × EntryEpochMarks :=
  let selected := insertLiveReason state.1 dirty .dirty
  match indexed.index.entryByModule dirty with
  | none => (selected, state.2)
  | some dirtyEntry =>
    indexed.index.workOnDependents (fun selected dependent =>
      insertLiveReason selected dependent (.reverseDependencyOfDirty dirty)) selected state.2
        dirtyEntry

def selectPackageCacheAwareLiveModulesIndexed (indexed : IndexedPackageLockGraph)
    (dirtyModules : List Name) : PackageArtifactResult PackageCacheAwareLiveSelection := do
  let dirtyModules := ofList nameCmp dirtyModules
  Result.forEach dirtyModules.zipIdx fun (module, position) =>
    Result.ensure (indexed.index.entryByModule module).isSome
      (.summaryMismatch s!"dirty_modules[{position}]" "module" "package lock module"
        (asDotted module))
  let (selected, _) := dirtyModules.foldl (selectDirtyModule indexed)
    ([], .new indexed.lock.entries.length)
  let order := indexed.index.topologicalEntries.map (nameAt indexed.index.moduleByEntry)
  .ok
    { modules := (takeEach nameCmp order selected).map fun entry =>
        { module := entry.1, reasons := entry.2 }
      proofEvidence := false }

end NpaCore.Package
