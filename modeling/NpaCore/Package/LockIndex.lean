import NpaCore.Lib.Flood
import NpaCore.Package.Accountability

/-!
# The index of a package lock

The operation-scoped index of `npa-package/src/lock.rs`: entries by module, positions in the
verification order, adjacency in both directions, the closure of a set of modules, and the
layers of a selection. Planning counters are left out.
-/

namespace NpaCore.Package

open NpaCore.Wire (Name)

/-! ### Values -/

structure PackageLockIndexInvariantError where
  invariant : String
  deriving DecidableEq, Repr

inductive IndexedPackageLockGraphError where
  | lock (error : PackageLockError)
  | internalInvariant (error : PackageLockIndexInvariantError)
  deriving DecidableEq, Repr

/-- A position of `usize::MAX`, which no entry has, is `none`. -/
structure PackageLockGraphIndex where
  moduleByEntry : List Name
  entryByModule : Name → Option Nat
  topologicalEntries : List Nat
  topologicalPositionByEntry : List (Option Nat)
  dependenciesByEntry : List (List Nat)
  reverseDependenciesByEntry : List (List Nat)

structure IndexedPackageLockGraph where
  lock : PackageLockManifest
  graph : PackageLockGraph
  index : PackageLockGraphIndex

/-! ### Building the index -/

abbrev IndexResult := Except IndexedPackageLockGraphError

def internalInvariant (invariant : String) : IndexedPackageLockGraphError :=
  .internalInvariant ⟨invariant⟩

structure PlacedEntries where
  topologicalEntries : List Nat
  topologicalPositionByEntry : List (Option Nat)

def placeEntry (entryByModule : Name → Option Nat) (placed : PlacedEntries)
    (indexed : Name × Nat) : IndexResult PlacedEntries := do
  let (module, position) := indexed
  let entry ← Result.okOr (entryByModule module) (internalInvariant "topological_module_missing")
  Result.ensure (placed.topologicalPositionByEntry[entry]?.getD none).isNone
    (internalInvariant "duplicate_topological_entry")
  .ok
    { topologicalEntries := placed.topologicalEntries ++ [entry]
      topologicalPositionByEntry := placed.topologicalPositionByEntry.set entry (some position) }

/-- `>=` on positions, in which `usize::MAX` comes last. -/
def notBefore : Option Nat → Option Nat → Bool
  | none, _ => true
  | some _, none => false
  | some left, some right => right ≤ left

/-- The dependencies of one entry, the dependents of all, and the marks of this epoch. -/
structure FoundDependencies where
  dependencies : List Nat
  reverseDependenciesByEntry : List (List Nat)
  seenDependencyEpoch : List Nat

def addDependency (moduleByEntry : List Name) (positions : List (Option Nat))
    (dependent epoch : Nat) (found : FoundDependencies)
    (resolvedImport : PackageLockResolvedImport) : IndexResult FoundDependencies := do
  let dependency := resolvedImport.entryIndex
  Result.ensure
    (!(moduleByEntry.length ≤ dependency ||
      moduleByEntry[dependency]? ≠ some resolvedImport.module ||
      notBefore (positions[dependency]?.getD none) (positions[dependent]?.getD none) ||
      found.seenDependencyEpoch[dependency]? = some epoch))
    (internalInvariant "dependency_edge")
  .ok
    { dependencies := found.dependencies ++ [dependency]
      reverseDependenciesByEntry :=
        found.reverseDependenciesByEntry.modify dependency (· ++ [dependent])
      seenDependencyEpoch := found.seenDependencyEpoch.set dependency epoch }

structure AdjacentEntries where
  dependenciesByEntry : List (List Nat)
  reverseDependenciesByEntry : List (List Nat)
  seenDependencyEpoch : List Nat
  epoch : Nat

def addDependent (moduleByEntry : List Name) (positions : List (Option Nat))
    (resolved : List (List PackageLockResolvedImport)) (adjacent : AdjacentEntries)
    (dependent : Nat) : IndexResult AdjacentEntries := do
  let epoch := adjacent.epoch + 1
  let found ← Result.foldEach (resolved[dependent]?.getD [])
    { dependencies := []
      reverseDependenciesByEntry := adjacent.reverseDependenciesByEntry
      seenDependencyEpoch := adjacent.seenDependencyEpoch }
    (addDependency moduleByEntry positions dependent epoch)
  .ok
    { dependenciesByEntry := adjacent.dependenciesByEntry.set dependent found.dependencies
      reverseDependenciesByEntry := found.reverseDependenciesByEntry
      seenDependencyEpoch := found.seenDependencyEpoch
      epoch }

def buildIndexedPackageLockGraphFromValidated (lock : PackageLockManifest)
    (graph : PackageLockGraph) : IndexResult IndexedPackageLockGraph := do
  let entryCount := lock.entries.length
  Result.ensure
    (graph.resolvedEntryImports.length = entryCount && graph.topologicalOrder.length = entryCount)
    (internalInvariant "graph_entry_count")
  let moduleByEntry := lock.entries.map (·.module)
  let entryByModule := indexOfName? moduleByEntry
  Result.ensure (moduleByEntry.dedup.length = entryCount)
    (internalInvariant "duplicate_module_index")
  let placed ← Result.foldEach graph.topologicalOrder.zipIdx
    { topologicalEntries := [], topologicalPositionByEntry := List.replicate entryCount none }
    (placeEntry entryByModule)
  let adjacent ← Result.foldEach placed.topologicalEntries
    { dependenciesByEntry := List.replicate entryCount []
      reverseDependenciesByEntry := List.replicate entryCount []
      seenDependencyEpoch := List.replicate entryCount 0
      epoch := 0 }
    (addDependent moduleByEntry placed.topologicalPositionByEntry graph.resolvedEntryImports)
  .ok
    { lock
      graph
      index :=
        { moduleByEntry
          entryByModule
          topologicalEntries := placed.topologicalEntries
          topologicalPositionByEntry := placed.topologicalPositionByEntry
          dependenciesByEntry := adjacent.dependenciesByEntry
          reverseDependenciesByEntry := adjacent.reverseDependenciesByEntry } }

def buildIndexedPackageLockGraph (lock : PackageLockManifest) :
    IndexResult IndexedPackageLockGraph := do
  let product ← (buildNormalizedPackageLockGraph lock).mapError .lock
  buildIndexedPackageLockGraphFromValidated product.normalizedLock product.graph

/-! ### Closures and layers -/

namespace PackageLockGraphIndex

variable (index : PackageLockGraphIndex)

/-- The walk along dependencies, with one bit for each entry. -/
def forward : Flood Nat (List Bool) where
  toMarking := .bits
  toDiscipline := .stack Nat
  next entry := index.dependenciesByEntry[entry]?.getD []
  targets := index.dependenciesByEntry.flatten.toFinset
  next_targets := by
    intro entry dependency mem
    rw [List.mem_toFinset, List.mem_flatten]
    cases here : index.dependenciesByEntry[entry]? with
    | none => simp [here] at mem
    | some dependencies =>
      rw [here] at mem
      exact ⟨dependencies, List.mem_of_getElem? here, mem⟩

def dependencyClosure (seeds : List Name) : Except PackageLockIndexInvariantError (List Bool) := do
  let start : Flood.State Nat (List Bool) :=
    { pending := [], marks := List.replicate index.moduleByEntry.length false }
  let state ← Result.foldEach seeds start fun state seed => do
    let entry ← Result.okOr (index.entryByModule seed) ⟨"selected_module_missing_from_index"⟩
    .ok (index.forward.enter state entry)
  .ok (index.forward.fill state)

structure AssignedLayers where
  layerByEntry : List Nat
  layers : List (List Nat)

def isSelected (selected : List Bool) (entry : Nat) : Bool := selected[entry]?.getD false

def layerOf (selected : List Bool) (assigned : AssignedLayers) (entry : Nat) : Nat :=
  let dependencies := (index.dependenciesByEntry[entry]?.getD []).filter (isSelected selected)
  (dependencies.map fun dependency => (assigned.layerByEntry[dependency]?.getD 0) + 1).max?.getD 0

def assignLayer (selected : List Bool) (assigned : AssignedLayers) (entry : Nat) :
    AssignedLayers :=
  if isSelected selected entry then
    let layer := index.layerOf selected assigned entry
    let missing := layer + 1 - assigned.layers.length
    { layerByEntry := assigned.layerByEntry.set entry layer
      layers := (assigned.layers ++ List.replicate missing []).modify layer (· ++ [entry]) }
  else assigned

def topologicalLayers (selected : List Bool) : List (List Nat) :=
  (index.topologicalEntries.foldl (index.assignLayer selected)
    { layerByEntry := List.replicate index.moduleByEntry.length 0, layers := [] }).layers

end PackageLockGraphIndex

end NpaCore.Package
