import Mathlib.Data.Finset.Sort
import NpaCore.Lib.Flood
import NpaCore.Package.Manifest

/-!
# Closures of the import graph

The two closures of `npa-package/src/graph.rs`, and what they list for the graph that a
manifest resolves to. A `BTreeSet` of indices is a finite set.

## Main result

`packageGraph_exact`: a cycle is reported exactly when modules import each other in a circle,
and otherwise the order and both closures are those of the local import relation.
-/

namespace NpaCore.Package

open Relation (ReflTransGen TransGen)
open Exploration (Reached)
open NpaCore.Wire (Name)

/-! ### The two closures -/

def PackageGraph.localTargets (graph : PackageGraph) (moduleIndex : Nat) : List Nat :=
  (graph.resolvedModuleImports[moduleIndex]?.getD []).filterMap (·.edge)

/-- A local import is entered among the dependents of the module it imports. -/
def pushDependent (importerIndex : Nat) (reverse : List (List Nat))
    (resolvedImport : ResolvedModuleImport) : List (List Nat) :=
  match resolvedImport.kind with
  | .local dependencyIndex => reverse.modify dependencyIndex (· ++ [importerIndex])
  | .external _ => reverse

/-- The dependents of each module in the order they are found. -/
def PackageGraph.pushedDependents (graph : PackageGraph) : List (List Nat) :=
  graph.resolvedModuleImports.zipIdx.foldl
    (fun reverse (imports, importerIndex) => imports.foldl (pushDependent importerIndex) reverse)
    (List.replicate graph.resolvedModuleImports.length [])

/-- `sort_unstable` and `dedup` of the dependents of each module. -/
def PackageGraph.reverse (graph : PackageGraph) : List (List Nat) :=
  graph.pushedDependents.map fun dependents => dependents.dedup.insertionSort (· ≤ ·)

/-- The walk along imports, in which the seeds are not marked again. -/
def PackageGraph.imports (graph : PackageGraph) (seeds : Finset Nat) : Flood Nat (Finset Nat) where
  toDiscipline := .queue Nat
  isMarked closure key := decide (key ∈ seeds ∨ key ∈ closure)
  mark closure key := insert key closure
  isMarked_mark closure key other := by simp [or_left_comm]
  next := graph.localTargets
  targets := (graph.resolvedModuleImports.flatMap (·.filterMap (·.edge))).toFinset
  next_targets := by
    intro moduleIndex target mem
    rw [List.mem_toFinset, List.mem_flatMap]
    unfold PackageGraph.localTargets at mem
    cases here : graph.resolvedModuleImports[moduleIndex]? with
    | none => simp [here] at mem
    | some imports =>
      rw [here] at mem
      exact ⟨imports, List.mem_of_getElem? here, mem⟩

/-- The walk from modules to the modules that import them. -/
def PackageGraph.dependents (graph : PackageGraph) : Flood Nat (Finset Nat) where
  toDiscipline := .queue Nat
  isMarked closure key := decide (key ∈ closure)
  mark closure key := insert key closure
  isMarked_mark closure key other := by simp
  next moduleIndex := graph.reverse[moduleIndex]?.getD []
  targets := graph.reverse.flatten.toFinset
  next_targets := by
    intro moduleIndex dependent mem
    rw [List.mem_toFinset, List.mem_flatten]
    cases here : graph.reverse[moduleIndex]? with
    | none => simp [here] at mem
    | some dependents =>
      rw [here] at mem
      exact ⟨dependents, List.mem_of_getElem? here, mem⟩

def packageGraphTransitiveDependencies (graph : PackageGraph) (seeds : Finset Nat) : List Nat :=
  let closure := (graph.imports seeds).fill { pending := seeds.sort, marks := ∅ }
  graph.topologicalOrder.filter (· ∈ closure)

def packageGraphDependentClosure (graph : PackageGraph) (seeds : Finset Nat) : List Nat :=
  let closure := graph.dependents.fill { pending := seeds.sort, marks := seeds }
  graph.topologicalOrder.filter (· ∈ closure)

/-! ### The derived adjacency -/

theorem pushDependent_length (importerIndex : Nat) (reverse : List (List Nat))
    (resolvedImport : ResolvedModuleImport) :
    (pushDependent importerIndex reverse resolvedImport).length = reverse.length := by
  unfold pushDependent
  split <;> simp

theorem mem_pushDependent {importerIndex : Nat} {reverse : List (List Nat)}
    {resolvedImport : ResolvedModuleImport} {moduleIndex dependent : Nat}
    (bound : moduleIndex < reverse.length) :
    dependent ∈ (pushDependent importerIndex reverse resolvedImport)[moduleIndex]?.getD [] ↔
      dependent ∈ reverse[moduleIndex]?.getD [] ∨
        dependent = importerIndex ∧ resolvedImport.edge = some moduleIndex := by
  unfold pushDependent ResolvedModuleImport.edge
  cases resolvedImport.kind with
  | «local» dependencyIndex =>
    rw [List.getElem?_modify, List.getElem?_eq_getElem bound]
    by_cases same : dependencyIndex = moduleIndex
    · simp [same]
    · simp [same]
  | external importIndex => simp

theorem foldl_pushDependent (importerIndex : Nat) (imports : List ResolvedModuleImport)
    (reverse : List (List Nat)) :
    (imports.foldl (pushDependent importerIndex) reverse).length = reverse.length ∧
      ∀ moduleIndex dependent, moduleIndex < reverse.length →
        (dependent ∈ (imports.foldl (pushDependent importerIndex) reverse)[moduleIndex]?.getD [] ↔
          dependent ∈ reverse[moduleIndex]?.getD [] ∨
            dependent = importerIndex ∧ moduleIndex ∈ imports.filterMap (·.edge)) := by
  induction imports generalizing reverse with
  | nil => simp
  | cons resolvedImport imports ih =>
    obtain ⟨length, members⟩ := ih (pushDependent importerIndex reverse resolvedImport)
    rw [pushDependent_length] at length members
    refine ⟨length, fun moduleIndex dependent bound => ?_⟩
    rw [List.foldl_cons, members moduleIndex dependent bound, mem_pushDependent bound, or_assoc,
      ← and_or_left, List.mem_filterMap, List.mem_filterMap]
    simp only [List.mem_cons, exists_eq_or_imp]

theorem foldl_dependents {resolved : List (List ResolvedModuleImport × Nat)}
    {reverse : List (List Nat)} {moduleIndex dependent : Nat} (bound : moduleIndex < reverse.length) :
    dependent ∈ (resolved.foldl (fun reverse (imports, importerIndex) =>
        imports.foldl (pushDependent importerIndex) reverse) reverse)[moduleIndex]?.getD [] ↔
      dependent ∈ reverse[moduleIndex]?.getD [] ∨
        ∃ imports, (imports, dependent) ∈ resolved ∧ moduleIndex ∈ imports.filterMap (·.edge) := by
  induction resolved generalizing reverse with
  | nil => simp
  | cons first resolved ih =>
    obtain ⟨imports, importerIndex⟩ := first
    obtain ⟨length, members⟩ := foldl_pushDependent importerIndex imports reverse
    rw [List.foldl_cons, ih (length.symm ▸ bound), members _ _ bound, or_assoc]
    apply or_congr_right
    constructor
    · rintro (⟨rfl, leads⟩ | ⟨others, mem, leads⟩)
      · exact ⟨imports, List.mem_cons_self, leads⟩
      · exact ⟨others, List.mem_cons_of_mem _ mem, leads⟩
    · rintro ⟨others, mem, leads⟩
      rcases List.mem_cons.mp mem with same | mem
      · cases same
        exact .inl ⟨rfl, leads⟩
      · exact .inr ⟨others, mem, leads⟩

theorem PackageGraph.pushedDependents_length (graph : PackageGraph) :
    graph.pushedDependents.length = graph.resolvedModuleImports.length := by
  have fold : ∀ (resolved : List (List ResolvedModuleImport × Nat)) (reverse : List (List Nat)),
      (resolved.foldl (fun reverse (imports, importerIndex) =>
        imports.foldl (pushDependent importerIndex) reverse) reverse).length = reverse.length := by
    intro resolved
    induction resolved with
    | nil => exact fun _ => rfl
    | cons first resolved ih =>
      intro reverse
      rw [List.foldl_cons, ih, (foldl_pushDependent _ _ _).1]
  rw [PackageGraph.pushedDependents, fold, List.length_replicate]

/-- The dependents of a module of the graph are the modules that import it. -/
theorem PackageGraph.mem_reverse {graph : PackageGraph} {moduleIndex dependent : Nat} :
    dependent ∈ graph.reverse[moduleIndex]?.getD [] ↔
      moduleIndex < graph.resolvedModuleImports.length ∧
        moduleIndex ∈ graph.localTargets dependent := by
  have sorted : dependent ∈ graph.reverse[moduleIndex]?.getD [] ↔
      dependent ∈ graph.pushedDependents[moduleIndex]?.getD [] := by
    rw [PackageGraph.reverse, List.getElem?_map]
    cases graph.pushedDependents[moduleIndex]? with
    | none => rfl
    | some dependents => simp [List.mem_insertionSort]
  rw [sorted]
  by_cases bound : moduleIndex < graph.resolvedModuleImports.length
  · have none : (List.replicate graph.resolvedModuleImports.length ([] : List Nat))[moduleIndex]? =
        some [] := by simp [bound]
    rw [PackageGraph.pushedDependents, foldl_dependents (by simpa using bound), none]
    unfold PackageGraph.localTargets
    simp only [Option.getD_some, List.not_mem_nil, false_or, bound, true_and,
      List.mk_mem_zipIdx_iff_getElem?]
    cases graph.resolvedModuleImports[dependent]? with
    | none => simp
    | some imports => simp
  · rw [List.getElem?_eq_none (by rw [graph.pushedDependents_length]; omega)]
    simp [bound]

/-! ### What the imports resolve to -/

/-- One module names another one among its imports. -/
def LocalImport (manifest : PackageManifest) (importer imported : Nat) : Prop :=
  ∃ module ∈ manifest.modules[importer]?, ∃ dependency ∈ manifest.modules[imported]?,
    dependency.module ∈ module.imports

/-- Every import names a module of the package or a top-level import. -/
def ImportsResolve (manifest : PackageManifest) : Prop :=
  ∀ module ∈ manifest.modules, ∀ name ∈ module.imports,
    name ∈ manifest.modules.map (·.module) ∨ name ∈ manifest.topLevelImports.map (·.module)

section Resolved

variable {manifest : PackageManifest}

theorem exists_of_indexOfName? {α : Type} {items : List α} {nameOf : α → Name} {name : Name}
    (mem : name ∈ items.map nameOf) :
    ∃ index item, indexOfName? (items.map nameOf) name = some index ∧
      items[index]? = some item ∧ nameOf item = name := by
  obtain ⟨index, found⟩ := indexOfName?_isSome mem
  have named := indexOfName?_eq_some found
  rw [List.getElem?_map, Option.map_eq_some_iff] at named
  obtain ⟨item, here, same⟩ := named
  exact ⟨index, item, found, here, same⟩

theorem resolveModuleImport_exists {path : String} {name : Name}
    (resolves : name ∈ manifest.modules.map (·.module) ∨
      name ∈ manifest.topLevelImports.map (·.module)) :
    ∃ resolved, resolveModuleImport manifest path name = .ok resolved := by
  unfold resolveModuleImport
  split
  · exact ⟨_, rfl⟩
  next missing =>
    rcases resolves with mem | mem
    · obtain ⟨index, module, found, here, -⟩ := exists_of_indexOfName? mem
      simp [localModuleIndex, found, here] at missing
    · obtain ⟨index, external, found, here, -⟩ := exists_of_indexOfName? mem
      rw [externalImportIndex, found, Option.bind_some, here]
      exact ⟨_, rfl⟩

/-- With distinct names a resolved import leads to the one module of its name. -/
theorem resolveModuleImport_edge (distinct : (manifest.modules.map (·.module)).Nodup)
    {path : String} {name : Name} {resolved : ResolvedModuleImport}
    (h : resolveModuleImport manifest path name = .ok resolved) (target : Nat) :
    resolved.edge = some target ↔
      ∃ dependency ∈ manifest.modules[target]?, dependency.module = name := by
  unfold resolveModuleImport at h
  split at h
  next localModule moduleIndex found =>
    cases h
    obtain ⟨index, found, found'⟩ := Option.bind_eq_some_iff.mp found
    obtain ⟨module, here, same⟩ := Option.map_eq_some_iff.mp found'
    cases same
    have named := indexOfName?_eq_some found
    rw [ResolvedModuleImport.edge]
    constructor
    · intro same
      cases same
      refine ⟨localModule, here, ?_⟩
      simpa [List.getElem?_map, here] using named
    · rintro ⟨dependency, there, rfl⟩
      have other : (manifest.modules.map (·.module))[target]? = some dependency.module := by
        rw [List.getElem?_map, there, Option.map_some]
      have bound := (List.getElem?_eq_some_iff.mp named).1
      rw [(List.getElem?_inj bound distinct).mp (named.trans other.symm)]
  next missing =>
    have none : ¬∃ dependency ∈ manifest.modules[target]?, dependency.module = name := by
      rintro ⟨dependency, there, rfl⟩
      obtain ⟨index, module, found, here, -⟩ := exists_of_indexOfName?
        (List.mem_map_of_mem (f := PackageModule.module) (List.mem_of_getElem? there))
      simp [localModuleIndex, found, here] at missing
    split at h
    · cases h
      simpa [ResolvedModuleImport.edge] using none
    · cases h

theorem resolveModuleImports_exists (resolves : ImportsResolve manifest) :
    ∃ resolved, resolveModuleImports manifest = .ok resolved := by
  apply Result.collect_exists
  rintro ⟨module, moduleIndex⟩ mem
  have here := List.mem_of_getElem? (List.mk_mem_zipIdx_iff_getElem?.mp mem)
  apply Result.collect_exists
  rintro ⟨name, importIndex⟩ mem
  have named := List.mem_of_getElem? (List.mk_mem_zipIdx_iff_getElem?.mp mem)
  exact resolveModuleImport_exists (resolves module here name named)

theorem resolveModuleImports_length {resolved : List (List ResolvedModuleImport)}
    (h : resolveModuleImports manifest = .ok resolved) :
    resolved.length = manifest.modules.length := by
  simpa using (Result.collect_eq_ok.mp h).length_eq.symm

/-- The edges of the graph are the local imports. -/
theorem mem_localTargets (distinct : (manifest.modules.map (·.module)).Nodup)
    (graph : PackageGraph)
    (h : resolveModuleImports manifest = .ok graph.resolvedModuleImports) (importer imported : Nat) :
    imported ∈ graph.localTargets importer ↔ LocalImport manifest importer imported := by
  have length := resolveModuleImports_length h
  unfold PackageGraph.localTargets LocalImport
  by_cases bound : importer < manifest.modules.length
  · have here := List.getElem?_eq_getElem bound
    have row := List.getElem?_eq_getElem (length ▸ bound)
    have each := Result.collect_getElem? h (a := (manifest.modules[importer], importer))
      (by simp [List.getElem?_zipIdx, here]) row
    rw [row, here, Option.getD_some, List.mem_filterMap]
    constructor
    · rintro ⟨resolved, mem, leads⟩
      obtain ⟨⟨name, importIndex⟩, named, one⟩ := Result.collect_mem_right each mem
      obtain ⟨dependency, there, rfl⟩ := (resolveModuleImport_edge distinct one imported).mp leads
      exact ⟨_, rfl, dependency, there,
        List.mem_of_getElem? (List.mk_mem_zipIdx_iff_getElem?.mp named)⟩
    · rintro ⟨module, same, dependency, there, mem⟩
      cases same
      obtain ⟨importIndex, place⟩ := List.mem_iff_getElem?.mp mem
      obtain ⟨resolved, mem, one⟩ := Result.collect_mem_left each
        (List.mk_mem_zipIdx_iff_getElem?.mpr place)
      exact ⟨resolved, mem, (resolveModuleImport_edge distinct one imported).mpr
        ⟨dependency, there, rfl⟩⟩
  · rw [List.getElem?_eq_none (by omega), List.getElem?_eq_none (by omega)]
    simp

end Resolved

/-! ### The order and the closures -/

/-- What the graph of a manifest without import cycles promises of its order and closures. -/
structure GraphExact (manifest : PackageManifest) (graph : PackageGraph) : Prop where
  permutation : graph.topologicalOrder.Perm (List.range manifest.modules.length)
  dependenciesFirst : ∀ before node after, graph.topologicalOrder = before ++ node :: after →
    ∀ imported, LocalImport manifest node imported → imported ∈ before
  dependents : ∀ seeds node, node ∈ packageGraphDependentClosure graph seeds ↔
    node < manifest.modules.length ∧ ∃ seed ∈ seeds, ReflTransGen (LocalImport manifest) node seed
  dependentsOrdered : ∀ seeds,
    (packageGraphDependentClosure graph seeds).Sublist graph.topologicalOrder ∧
      (packageGraphDependentClosure graph seeds).Nodup
  rebuild : ∀ seeds before node after,
    packageGraphDependentClosure graph seeds = before ++ node :: after →
      ∀ imported ∈ packageGraphDependentClosure graph seeds,
        LocalImport manifest node imported → imported ∈ before
  dependencies : ∀ seeds node, node ∈ packageGraphTransitiveDependencies graph seeds ↔
    node ∉ seeds ∧ ∃ seed ∈ seeds, ReflTransGen (LocalImport manifest) seed node
  dependenciesOrdered : ∀ seeds,
    (packageGraphTransitiveDependencies graph seeds).Sublist graph.topologicalOrder ∧
      (packageGraphTransitiveDependencies graph seeds).Nodup

/-- What is kept of an order still comes after what is kept of its imports. -/
theorem kept_before {order : List Nat} {kept : Nat → Bool} {leads : Nat → Nat → Prop}
    (first : ∀ before node after, order = before ++ node :: after →
      ∀ imported, leads node imported → imported ∈ before)
    {before after : List Nat} {node : Nat} (split : order.filter kept = before ++ node :: after)
    {imported : Nat} (stays : imported ∈ order.filter kept) (edge : leads node imported) :
    imported ∈ before := by
  obtain ⟨start, rest, rfl, rfl, hrest⟩ := List.filter_eq_append_iff.mp split
  obtain ⟨dropped, last, rfl, none, _, rfl⟩ := List.filter_eq_cons_iff.mp hrest
  have earlier := first (start ++ dropped) node last (by simp) imported edge
  have keeps := (List.mem_filter.mp stays).2
  rcases List.mem_append.mp earlier with mem | mem
  · exact List.mem_filter.mpr ⟨mem, keeps⟩
  · exact absurd keeps (none imported mem)

section Closures

variable {manifest : PackageManifest} {graph : PackageGraph}

theorem LocalImport.lt {importer imported : Nat} (edge : LocalImport manifest importer imported) :
    importer < manifest.modules.length ∧ imported < manifest.modules.length := by
  obtain ⟨_, here, _, there, _⟩ := edge
  exact ⟨(List.getElem?_eq_some_iff.mp here).1, (List.getElem?_eq_some_iff.mp there).1⟩

variable (edges : ∀ importer imported,
    imported ∈ graph.localTargets importer ↔ LocalImport manifest importer imported)
  (length : graph.resolvedModuleImports.length = manifest.modules.length)
  (complete : ∀ node, node ∈ graph.topologicalOrder ↔ node < manifest.modules.length)

include edges complete in
theorem mem_transitiveDependencies (seeds : Finset Nat) (node : Nat) :
    node ∈ packageGraphTransitiveDependencies graph seeds ↔
      node ∉ seeds ∧ ∃ seed ∈ seeds, ReflTransGen (LocalImport manifest) seed node := by
  have filled := Flood.isMarked_fill (graph.imports seeds)
    { pending := seeds.sort, marks := ∅ } (by simp [PackageGraph.imports])
    (by simp +contextual [PackageGraph.imports]) node
  have same : (fun importer imported => imported ∈ graph.localTargets importer) =
      LocalImport manifest := by
    funext importer imported
    exact propext (edges importer imported)
  have reached : Reached (fun key => {other | other ∈ (graph.imports seeds).next key})
      {start | (graph.imports seeds).isMarked ∅ start = true} node ↔
        ∃ seed ∈ seeds, ReflTransGen (LocalImport manifest) seed node := by
    simp only [Reached, Set.mem_ofPred_eq, ← same, PackageGraph.imports, Finset.notMem_empty,
      or_false, decide_eq_true_eq]
  -- A key is marked only where it is no seed.
  have free : ∀ key ∈ (graph.imports seeds).fill { pending := seeds.sort, marks := ∅ },
      key ∉ seeds := by
    refine Flood.fill_preserves (graph.imports seeds)
      (P := fun closure => ∀ key ∈ closure, key ∉ seeds) _ ?_ (by simp)
    intro closure key new old
    have unmarked : ¬(key ∈ seeds ∨ key ∈ closure) := by simpa [PackageGraph.imports] using new
    intro other mem
    rcases Finset.mem_insert.mp mem with rfl | mem
    · exact fun seed => unmarked (.inl seed)
    · exact old other mem
  have marked : (graph.imports seeds).isMarked
      ((graph.imports seeds).fill { pending := seeds.sort, marks := ∅ }) node = true ↔
        node ∈ seeds ∨ node ∈ (graph.imports seeds).fill { pending := seeds.sort, marks := ∅ } := by
    simp [PackageGraph.imports]
  rw [reached, marked] at filled
  simp only [packageGraphTransitiveDependencies, List.mem_filter, complete, decide_eq_true_eq]
  constructor
  · rintro ⟨-, mem⟩
    exact ⟨free node mem, filled.mp (.inr mem)⟩
  · rintro ⟨notSeed, seed, at_seed, path⟩
    refine ⟨?_, (filled.mpr ⟨seed, at_seed, path⟩).resolve_left notSeed⟩
    rcases path.cases_tail with rfl | ⟨_, _, edge⟩
    · exact absurd at_seed notSeed
    · exact edge.lt.2

include edges length complete in
theorem mem_dependentClosure (seeds : Finset Nat) (node : Nat) :
    node ∈ packageGraphDependentClosure graph seeds ↔
      node < manifest.modules.length ∧
        ∃ seed ∈ seeds, ReflTransGen (LocalImport manifest) node seed := by
  have filled := Flood.isMarked_fill graph.dependents
    { pending := seeds.sort, marks := seeds } (by simp [PackageGraph.dependents])
    (by simp +contextual [PackageGraph.dependents]) node
  have same : (fun imported importer => importer ∈ graph.dependents.next imported) =
      Function.swap (LocalImport manifest) := by
    funext imported importer
    refine propext (PackageGraph.mem_reverse.trans ?_)
    rw [edges, length]
    exact ⟨fun found => found.2, fun edge => ⟨edge.lt.2, edge⟩⟩
  have reached : Reached (fun key => {other | other ∈ graph.dependents.next key})
      {start | graph.dependents.isMarked seeds start = true} node ↔
        ∃ seed ∈ seeds, ReflTransGen (LocalImport manifest) node seed := by
    simp only [← Relation.reflTransGen_swap (r := LocalImport manifest), ← same, Reached,
      Set.mem_ofPred_eq, PackageGraph.dependents, decide_eq_true_eq]
  rw [reached] at filled
  simp only [packageGraphDependentClosure, List.mem_filter, complete, decide_eq_true_eq]
  rw [← filled]
  simp [PackageGraph.dependents]

end Closures

/-- The graph of the resolved imports leads where the local imports do. -/
theorem order_leads (graph : PackageGraph) (importer imported : Nat) :
    DepthFirst.Graph.Leads (graph.resolvedModuleImports.map fun imports => imports.map (·.edge))
      importer imported ↔ imported ∈ graph.localTargets importer := by
  rw [DepthFirst.Graph.Leads, DepthFirst.Graph.edges, List.getElem?_map, PackageGraph.localTargets]
  cases graph.resolvedModuleImports[importer]? with
  | none => simp
  | some imports => simp

theorem resolvePackageGraph_exact {manifest : PackageManifest}
    (distinct : (manifest.modules.map (·.module)).Nodup) (resolves : ImportsResolve manifest) :
    ((∃ path actual, resolvePackageGraph manifest = .error (.importCycle path actual)) ↔
      ∃ node, TransGen (LocalImport manifest) node node) ∧
    ((¬∃ node, TransGen (LocalImport manifest) node node) →
      ∃ graph, resolvePackageGraph manifest = .ok graph ∧ GraphExact manifest graph) := by
  obtain ⟨resolved, hresolved⟩ := resolveModuleImports_exists resolves
  have length := resolveModuleImports_length hresolved
  have edges (order : List Nat) := mem_localTargets distinct
    { resolvedModuleImports := resolved, topologicalOrder := order } hresolved
  -- the graph that is searched is the one of the local imports
  have leads : DepthFirst.Graph.Leads (resolved.map fun imports => imports.map (·.edge)) =
      LocalImport manifest := by
    funext importer imported
    exact propext ((order_leads ⟨resolved, []⟩ importer imported).trans
      (edges [] importer imported))
  have inRange : DepthFirst.Graph.InRange (resolved.map fun imports => imports.map (·.edge)) := by
    intro importer imported edge
    have local_edge : LocalImport manifest importer imported := leads ▸ edge
    simpa [length] using local_edge.lt.2
  have succeeds := DepthFirst.order_isOk_iff inRange
  rw [leads] at succeeds
  have outcome : resolvePackageGraph manifest = (topologicalOrder resolved >>= fun order =>
      .ok { resolvedModuleImports := resolved, topologicalOrder := order }) := by
    rw [resolvePackageGraph, hresolved]
    rfl
  rw [outcome, topologicalOrder]
  cases horder : DepthFirst.order (resolved.map fun imports => imports.map (·.edge)) with
  | error cycle =>
    have cyclic : ∃ node, TransGen (LocalImport manifest) node node := by
      by_contra none
      obtain ⟨nodes, ok⟩ := succeeds.mpr fun node path => none ⟨node, path⟩
      rw [horder] at ok
      cases ok
    refine ⟨⟨fun _ => cyclic, fun _ => ⟨_, _, rfl⟩⟩, fun none => absurd cyclic none⟩
  | ok order =>
    have acyclic : ¬∃ node, TransGen (LocalImport manifest) node node := by
      rintro ⟨node, path⟩
      exact succeeds.mp ⟨order, horder⟩ node path
    refine ⟨⟨nofun, fun cyclic => absurd cyclic acyclic⟩, fun _ => ⟨_, rfl, ?_⟩⟩
    obtain ⟨nodup, listed, settled⟩ := DepthFirst.order_spec inRange horder
    have complete : ∀ node, node ∈ order ↔ node < manifest.modules.length := by
      intro node
      rw [listed, List.length_map, length]
    have first : ∀ before node after, order = before ++ node :: after →
        ∀ imported, LocalImport manifest node imported → imported ∈ before := by
      intro before node after split imported edge
      refine settled before node after split imported ?_
      change DepthFirst.Graph.Leads _ node imported
      rw [leads]
      exact edge
    constructor
    case permutation =>
      refine (List.perm_ext_iff_of_nodup nodup List.nodup_range).mpr fun node => ?_
      rw [complete, List.mem_range]
    case dependenciesFirst => exact first
    case dependents => exact mem_dependentClosure (edges order) length complete
    case dependentsOrdered =>
      exact fun seeds => ⟨List.filter_sublist, nodup.sublist List.filter_sublist⟩
    case rebuild =>
      intro seeds before node after split imported stays edge
      exact kept_before first split stays edge
    case dependencies => exact mem_transitiveDependencies (edges order) complete
    case dependenciesOrdered =>
      exact fun seeds => ⟨List.filter_sublist, nodup.sublist List.filter_sublist⟩

def pairModule (name : String) (imports : List Name) : PackageModule where
  module := ⟨[name]⟩
  source := ⟨""⟩
  certificate := ⟨""⟩
  imports := imports
  expectedCertificateFileHash := Vector.replicate 32 0
  expectedExportHash := Vector.replicate 32 0
  expectedAxiomReportHash := Vector.replicate 32 0
  expectedCertificateHash := Vector.replicate 32 0
  metaPath := none
  replay := none
  inductives := none
  definitions := none
  theorems := none
  axioms := none

/-- `App` imports `Base`, which comes after it in the manifest. -/
def pairManifest : PackageManifest where
  schema := packageManifestSchema
  package := ⟨"pair"⟩
  version := ⟨"0.1.0"⟩
  coreSpec := coreSpecV01
  kernelProfile := kernelProfileV01
  certificateFormat := certificateFormatCanonicalV01
  checkerProfile := checkerProfileReferenceV01
  policy := { allowCustomAxioms := false, allowedAxioms := [] }
  modules := [pairModule "App" [⟨["Base"]⟩], pairModule "Base" []]
  imports := none

theorem pairManifest_import {importer imported : Nat}
    (edge : LocalImport pairManifest importer imported) : importer = 0 ∧ imported = 1 := by
  have bounds : importer < 2 ∧ imported < 2 := edge.lt
  obtain ⟨module, here, dependency, there, mem⟩ := edge
  match importer, imported, bounds with
  | 0, 0, _ =>
    cases here
    cases there
    exact absurd mem (by decide)
  | 0, 1, _ => exact ⟨rfl, rfl⟩
  | 1, _, _ =>
    cases here
    cases mem

theorem resolvePackageGraph_exact_pair :
    ∃ graph, resolvePackageGraph pairManifest = .ok graph ∧ GraphExact pairManifest graph := by
  have distinct : (pairManifest.modules.map (·.module)).Nodup := by decide
  have resolves : ImportsResolve pairManifest := by
    intro module mem name named
    simp only [pairManifest, List.mem_cons, List.not_mem_nil, or_false] at mem
    rcases mem with rfl | rfl
    · obtain rfl : name = ⟨["Base"]⟩ := by simpa [pairModule] using named
      exact .inl (by decide)
    · cases named
  apply (resolvePackageGraph_exact distinct resolves).2
  rintro ⟨node, path⟩
  obtain ⟨_, first, _⟩ := TransGen.head'_iff.mp path
  obtain ⟨_, _, last⟩ := TransGen.tail'_iff.mp path
  have start := (pairManifest_import first).1
  have stop := (pairManifest_import last).2
  omega

end NpaCore.Package
