import NpaCore.Package.LockLayers

/-!
# The graph and the index of a package lock

What `build_indexed_package_lock_graph` returns for a valid lock whose imports resolve.

## Main result

`buildIndexedPackageLockGraph_exact`: a cycle is reported exactly when modules import each
other in a circle; otherwise order, adjacency, closures and layers are those of the import
relation; and nothing depends on the order of the entries and of their imports.
-/

namespace NpaCore.Package

open NpaCore.Table
open NpaCore.Wire (Name)
open Relation (ReflTransGen TransGen)
open Exploration (Reached)
open PackageLockGraphIndex (isSelected)

/-! ### Closures -/

section Closure

variable {modules : List Name} {resolved : List (List PackageLockResolvedImport)} {nodes : List Nat}

theorem enterSeeds_eq (index : PackageLockGraphIndex) (seeds : List Name) (entryOf : Name → Nat)
    (found : ∀ seed ∈ seeds, index.entryByModule seed = some (entryOf seed))
    (state : Flood.State Nat (List Bool)) :
    Result.foldEach seeds state (fun state seed => do
        let entry ← Result.okOr (index.entryByModule seed)
          (⟨"selected_module_missing_from_index"⟩ : PackageLockIndexInvariantError)
        .ok (index.forward.enter state entry)) =
      .ok ((seeds.map entryOf).foldl index.forward.enter state) := by
  induction seeds generalizing state with
  | nil => rfl
  | cons seed seeds ih =>
    rw [List.forall_mem_cons] at found
    rw [Result.foldEach, found.1, Result.okOr, Result.ok_bind, Result.ok_bind, ih found.2]
    rfl

theorem Prepared.importedEntries_outside (prepared : Prepared modules resolved nodes) {entry : Nat}
    (outside : modules.length ≤ entry) : importedEntries resolved entry = [] := by
  rw [importedEntries, List.getElem?_eq_none (prepared.length ▸ outside)]
  rfl

theorem forward_next (prepared : Prepared modules resolved nodes) (entry : Nat) :
    (indexOf modules resolved nodes).forward.next entry = importedEntries resolved entry := by
  change (table modules.length (importedEntries resolved))[entry]?.getD [] = _
  rw [getElem?_table]
  by_cases bound : entry < modules.length
  · rw [if_pos bound]
    rfl
  · rw [if_neg bound, prepared.importedEntries_outside (Nat.le_of_not_lt bound)]
    rfl

/-- The entries of the seeds are selected, and what they reach. -/
theorem forward_fill (prepared : Prepared modules resolved nodes) (starts : List Nat) (entry : Nat)
    (bound : entry < modules.length) :
    isSelected ((indexOf modules resolved nodes).forward.fill
        (starts.foldl (indexOf modules resolved nodes).forward.enter
          { pending := [], marks := List.replicate modules.length false })) entry = true ↔
      ∃ start ∈ starts, ReflTransGen (fun entry dependency =>
        dependency ∈ importedEntries resolved entry) start entry := by
  generalize flood_eq : (indexOf modules resolved nodes).forward = flood
  have next : ∀ entry, flood.next entry = importedEntries resolved entry := fun entry => by
    rw [← flood_eq, forward_next prepared]
  have bits : ∀ marks key, flood.isMarked marks key = marks[key]?.getD true := fun _ _ => by
    rw [← flood_eq]
    rfl
  have outside : ∀ key, flood.isMarked (List.replicate modules.length false) key = true →
      modules.length ≤ key := by
    intro key marked
    by_contra inside
    simp [bits, Nat.lt_of_not_le inside] at marked
  have length : (flood.fill (starts.foldl flood.enter
      { pending := [], marks := List.replicate modules.length false })).length = modules.length := by
    have keeps : ∀ (marks : List Bool) (key : Nat), flood.isMarked marks key = false →
        marks.length = modules.length → (flood.mark marks key).length = modules.length := by
      intro marks key _ same
      rw [← flood_eq]
      exact (List.length_set ..).trans same
    refine Flood.fill_preserves flood (P := fun marks => marks.length = modules.length) _ keeps ?_
    exact Flood.foldl_preserves keeps (List.length_replicate ..)
  have filled := Flood.isMarked_fill flood (starts.foldl flood.enter
    { pending := [], marks := List.replicate modules.length false }) ?waits ?idle entry
  case waits =>
    intro key waits
    have found := (Flood.mem_pending_foldl.mp waits).resolve_left List.not_mem_nil
    exact Flood.isMarked_foldl.mpr (.inl found.1)
  case idle =>
    intro key marked
    by_cases old : flood.isMarked (List.replicate modules.length false) key = true
    · rw [next, prepared.importedEntries_outside (outside key old)]
      exact .inr (by simp)
    · have start := (Flood.isMarked_foldl.mp marked).resolve_right old
      exact .inl (Flood.mem_pending_foldl.mpr (.inr ⟨start, by simpa using old⟩))
  have selected : ∀ marks : List Bool, marks.length = modules.length →
      (isSelected marks entry = true ↔ flood.isMarked marks entry = true) := by
    intro marks same
    rw [bits, isSelected, List.getElem?_eq_getElem (same ▸ bound)]
    rfl
  rw [selected _ length, filled]
  simp only [Reached, next, Set.mem_ofPred_eq, Flood.isMarked_foldl]
  constructor
  · rintro ⟨start, mem | old, path⟩
    · exact ⟨start, mem, path⟩
    · -- Nothing leads from a number that is no entry.
      rcases path.cases_head with rfl | ⟨_, step, _⟩
      · exact absurd (outside start old) (Nat.not_le_of_lt bound)
      · rw [prepared.importedEntries_outside (outside start old)] at step
        cases step
  · rintro ⟨start, mem, path⟩
    exact ⟨start, .inl mem, path⟩

theorem dependencyClosure_exact (prepared : Prepared modules resolved nodes) (seeds : List Name)
    (known : ∀ seed ∈ seeds, seed ∈ modules) :
    ∃ selected, (indexOf modules resolved nodes).dependencyClosure seeds = .ok selected ∧
      ∀ entry, entry < modules.length →
        (isSelected selected entry = true ↔
          ∃ start, (∃ seed ∈ seeds, modules[start]? = some seed) ∧
            ReflTransGen (fun entry dependency => dependency ∈ importedEntries resolved entry)
              start entry) := by
  have found : ∀ seed ∈ seeds, ∃ entry, indexOfName? modules seed = some entry ∧
      modules[entry]? = some seed := by
    intro seed mem
    obtain ⟨entry, here⟩ := indexOfName?_isSome (known seed mem)
    exact ⟨entry, here, indexOfName?_eq_some here⟩
  have entryOf : ∀ seed ∈ seeds, indexOfName? modules seed =
      some ((indexOfName? modules seed).getD 0) := by
    intro seed mem
    obtain ⟨entry, here, -⟩ := found seed mem
    rw [here]
    rfl
  have closure : (indexOf modules resolved nodes).dependencyClosure seeds =
      .ok ((indexOf modules resolved nodes).forward.fill
        ((seeds.map fun seed => (indexOfName? modules seed).getD 0).foldl
          (indexOf modules resolved nodes).forward.enter
            { pending := [], marks := List.replicate modules.length false })) := by
    rw [PackageLockGraphIndex.dependencyClosure, enterSeeds_eq _ seeds (fun seed => (indexOfName? modules seed).getD 0) entryOf,
      Result.ok_bind]
    rfl
  refine ⟨_, closure, fun entry bound => ?_⟩
  refine (forward_fill prepared _ entry bound).trans (exists_congr fun start => ?_)
  refine and_congr_left fun _ => ?_
  rw [List.mem_map]
  constructor
  · rintro ⟨seed, mem, rfl⟩
    obtain ⟨entry, here, there⟩ := found seed mem
    exact ⟨seed, mem, by rw [here, Option.getD_some, there]⟩
  · rintro ⟨seed, mem, there⟩
    refine ⟨seed, mem, ?_⟩
    rw [indexOfName?_of_nodup prepared.named there]
    rfl

end Closure

/-! ### The imports of a lock -/

/-- Every import names an entry with the pinned hashes, and no external entry a local one. -/
def LockImportsResolve (lock : PackageLockManifest) : Prop :=
  ∀ entry ∈ lock.entries, ∀ lockImport ∈ entry.imports,
    ∃ imported ∈ lock.entries, ImportOf lockImport imported ∧
      ¬(entry.origin = .external ∧ imported.origin = .local)

variable {entries : List PackageLockEntry}

theorem lockEntryAt_of_nodup
    (distinct : (entries.map (·.module)).Nodup) {entry : PackageLockEntry} (mem : entry ∈ entries) :
    ∃ index, lockEntryAt entries entry.module = some (entry, index) := by
  obtain ⟨index, here⟩ := List.mem_iff_getElem?.mp mem
  have named : (entries.map (·.module))[index]? = some entry.module := by
    rw [List.getElem?_map, here, Option.map_some]
  exact ⟨index, by simp [lockEntryAt, lockEntryIndices, indexOfName?_of_nodup distinct named, here]⟩

theorem resolveLockImport_exists
    (distinct : (entries.map (·.module)).Nodup) {entry imported : PackageLockEntry}
    {lockImport : PackageLockImport} (path : String) (mem : imported ∈ entries)
    (importOf : ImportOf lockImport imported)
    (allowed : ¬(entry.origin = .external ∧ imported.origin = .local)) :
    ∃ resolved, resolveLockImport entries entry path lockImport = .ok resolved := by
  obtain ⟨index, found⟩ := lockEntryAt_of_nodup distinct mem
  rw [importOf.module] at found
  have permitted : (!(decide (entry.origin = .external) && decide (imported.origin = .local))) =
      true := by
    rw [← Bool.decide_and, Bool.not_eq_true', decide_eq_false_iff_not]
    exact allowed
  have exported (path : String) : checkLockImportExportHash path imported.exportHash
      lockImport.exportHash = .ok () := checkHash_eq_ok.mpr importOf.exportHash
  have certified (path : String) : checkLockImportCertificateHash path imported.certificateHash
      lockImport.certificateHash = .ok () := checkHash_eq_ok.mpr importOf.certificateHash
  refine ⟨⟨lockImport.module, index, lockImport.exportHash, lockImport.certificateHash⟩,
    inModule_eq_ok.mpr ?_⟩
  rw [found, Result.okOr, Result.ok_bind]
  dsimp only
  rw [permitted, Result.ensure, if_pos rfl, Result.ok_bind, exported, Result.ok_bind, certified,
    Result.ok_bind]

theorem resolveLockImport_module {entry : PackageLockEntry}
    {path : String} {lockImport : PackageLockImport} {resolved : PackageLockResolvedImport}
    (h : resolveLockImport entries entry path lockImport = .ok resolved) :
    resolved.module = lockImport.module := by
  simp only [resolveLockImport, inModule_eq_ok, Result.bind_eq_ok, Except.ok.injEq] at h
  obtain ⟨_, _, _, _, _, _, _, _, rfl⟩ := h
  rfl

section Lock

variable {lock : PackageLockManifest}

theorem normalized_nodup (valid : ValidLock lock) :
    ((normalizedPackageLock lock).entries.map (·.module)).Nodup := by
  have sorted := (List.perm_insertionSort
    (fun left right : PackageLockEntry => nameLe left.module right.module) lock.entries).map
      (fun entry : PackageLockEntry => entry.module)
  rw [normalizedPackageLock, List.map_map]
  exact sorted.nodup_iff.mpr valid.modules

theorem resolveNormalized_exists (valid : ValidLock lock) (resolves : LockImportsResolve lock) :
    ∃ resolved, resolveLockEntryImports (normalizedPackageLock lock).entries = .ok resolved := by
  apply Result.collect_exists
  rintro ⟨entry, entryIndex⟩ mem
  apply Result.collect_exists
  rintro ⟨lockImport, importIndex⟩ himport
  obtain ⟨original, horiginal, rfl⟩ := mem_normalized.mp
    (List.mem_of_getElem? (List.mk_mem_zipIdx_iff_getElem?.mp mem))
  obtain ⟨imported, himported, importOf, allowed⟩ := resolves original horiginal lockImport
    (mem_sortedImports.mp (List.mem_of_getElem? (List.mk_mem_zipIdx_iff_getElem?.mp himport)))
  exact resolveLockImport_exists (normalized_nodup valid) _
    (mem_normalized.mpr ⟨imported, himported, rfl⟩)
    ⟨importOf.module, importOf.exportHash, importOf.certificateHash⟩ allowed

theorem mem_importedEntries_iff_edge {resolved : List (List PackageLockResolvedImport)}
    {node target : Nat} :
    target ∈ importedEntries resolved node ↔ some target ∈ (importEdges resolved).edges node := by
  rw [importedEntries, importEdges, DepthFirst.Graph.edges, List.getElem?_map]
  cases resolved[node]? with
  | none => simp
  | some imports => simp

variable {resolved : List (List PackageLockResolvedImport)}

/-- The entry and the import that a resolved import comes from. -/
theorem exists_of_resolved (h : resolveLockEntryImports entries = .ok resolved) {node : Nat}
    {resolvedImport : PackageLockResolvedImport} (mem : resolvedImport ∈ resolved[node]?.getD []) :
    ∃ entry lockImport, entries[node]? = some entry ∧ lockImport ∈ entry.imports ∧
      resolvedImport.module = lockImport.module ∧
      (entries.map (·.module))[resolvedImport.entryIndex]? = some resolvedImport.module := by
  cases himports : resolved[node]? with
  | none => simp [himports] at mem
  | some imports =>
    rw [himports, Option.getD_some] at mem
    have bound : node < entries.length :=
      resolveLockEntryImports_length h ▸ (List.getElem?_eq_some_iff.mp himports).1
    have row := Result.collect_getElem? h (a := (entries[node], node))
      (by simp [List.getElem?_zipIdx, List.getElem?_eq_getElem bound]) himports
    obtain ⟨⟨lockImport, place⟩, here, one⟩ := Result.collect_mem_right row mem
    obtain ⟨imported, there, importOf⟩ := resolveLockImport_eq_ok one
    have same := resolveLockImport_module one
    refine ⟨entries[node], lockImport, List.getElem?_eq_getElem bound,
      List.mem_of_getElem? (List.mk_mem_zipIdx_iff_getElem?.mp here), same, ?_⟩
    rw [List.getElem?_map, there, Option.map_some, importOf.module, same]

theorem importedEntries_nodup (valid : ValidLock lock)
    (h : resolveLockEntryImports (normalizedPackageLock lock).entries = .ok resolved) (node : Nat) :
    (importedEntries resolved node).Nodup := by
  cases himports : resolved[node]? with
  | none => simp [importedEntries, himports]
  | some imports =>
    have bound : node < (normalizedPackageLock lock).entries.length :=
      resolveLockEntryImports_length h ▸ (List.getElem?_eq_some_iff.mp himports).1
    have row := Result.collect_getElem? h (a := ((normalizedPackageLock lock).entries[node], node))
      (by simp [List.getElem?_zipIdx, List.getElem?_eq_getElem bound]) himports
    have names := Result.map_of_collect (f := fun indexed : PackageLockImport × Nat =>
      indexed.1.module) (g := PackageLockResolvedImport.module)
      (fun _ _ one => resolveLockImport_module one) row
    obtain ⟨original, horiginal, same⟩ := mem_normalized.mp (List.getElem_mem bound)
    have distinct : (imports.map (·.module)).Nodup := by
      rw [names, map_zipIdx _ PackageLockImport.module, ← same]
      have perm := (List.perm_insertionSort (fun left right : PackageLockImport =>
        nameLe left.module right.module) original.imports).map (·.module)
      exact perm.nodup_iff.mpr (valid.entries original horiginal).imports.distinct
    -- The module of a resolved import can be read off its entry index.
    have read : (importedEntries resolved node).map
        (fun target => ((normalizedPackageLock lock).entries.map (·.module))[target]?) =
          (imports.map (·.module)).map some := by
      rw [importedEntries, himports, Option.getD_some, List.map_map, List.map_map]
      refine List.map_congr_left fun resolvedImport mem => ?_
      obtain ⟨_, _, _, _, _, there⟩ := exists_of_resolved h
        (by rw [himports, Option.getD_some]; exact mem)
      exact there
    exact List.Nodup.of_map _ (read ▸ distinct.map (Option.some_injective _))

/-- The edges between entries are the imports between their modules. -/
theorem mem_importedEntries (valid : ValidLock lock)
    (h : resolveLockEntryImports (normalizedPackageLock lock).entries = .ok resolved)
    (node target : Nat) :
    target ∈ importedEntries resolved node ↔
      ∃ owner imported, ((normalizedPackageLock lock).entries.map (·.module))[node]? = some owner ∧
        ((normalizedPackageLock lock).entries.map (·.module))[target]? = some imported ∧
        lock.Imports owner imported := by
  constructor
  · intro mem
    obtain ⟨resolvedImport, hresolved, rfl⟩ := List.mem_map.mp mem
    obtain ⟨entry, lockImport, here, himport, same, there⟩ := exists_of_resolved h hresolved
    obtain ⟨original, horiginal, rfl⟩ := mem_normalized.mp (List.mem_of_getElem? here)
    refine ⟨original.module, resolvedImport.module, ?_, there, original, horiginal, rfl,
      lockImport, mem_sortedImports.mp himport, same.symm⟩
    rw [List.getElem?_map, here]
    rfl
  · rintro ⟨owner, imported, here, there, original, horiginal, rfl, lockImport, himport, rfl⟩
    rw [List.getElem?_map, Option.map_eq_some_iff] at here
    obtain ⟨entry, here, sameName⟩ := here
    obtain ⟨other, hother, rfl⟩ := mem_normalized.mp (List.mem_of_getElem? here)
    obtain rfl := List.inj_on_of_nodup_map valid.modules hother horiginal sameName
    obtain ⟨found, imported, edge, hfound, named⟩ := importEdges_complete h here
      (mem_sortedImports.mpr himport)
    have bound := (List.getElem?_eq_some_iff.mp there).1
    have name : ((normalizedPackageLock lock).entries.map (·.module))[found]? =
        some lockImport.module := by
      rw [List.getElem?_map, hfound, Option.map_some, named]
    rw [(List.getElem?_inj bound (normalized_nodup valid)).mp (there.trans name.symm)]
    exact mem_importedEntries_iff_edge.mpr edge

theorem importEdges_inRange
    (h : resolveLockEntryImports entries = .ok resolved) : (importEdges resolved).InRange := by
  intro node target edge
  obtain ⟨imported, here⟩ := mem_importEdges h edge
  have bound := (List.getElem?_eq_some_iff.mp here).1
  simpa [importEdges, resolveLockEntryImports_length h] using bound

theorem prepared_of_order (valid : ValidLock lock)
    (h : resolveLockEntryImports (normalizedPackageLock lock).entries = .ok resolved)
    {nodes : List Nat} (horder : DepthFirst.order (importEdges resolved) = .ok nodes) :
    Prepared ((normalizedPackageLock lock).entries.map (·.module)) resolved nodes := by
  obtain ⟨nodup, complete, settled⟩ := DepthFirst.order_spec (importEdges_inRange h) horder
  constructor
  case length => rw [resolveLockEntryImports_length h, List.length_map]
  case named => exact normalized_nodup valid
  case targets =>
    intro owner resolvedImport mem
    obtain ⟨_, _, _, _, _, there⟩ := exists_of_resolved h mem
    exact there
  case distinct => exact importedEntries_nodup valid h
  case nodup => exact nodup
  case complete =>
    intro node
    rw [complete, importEdges, List.length_map, resolveLockEntryImports_length h, List.length_map]
  case settled =>
    intro before node after split dependency leads
    exact settled before node after split dependency (mem_importedEntries_iff_edge.mp leads)

/-! ### From entries to modules -/

/-- The module of an entry and the entry of a module. -/
def nameAt (modules : List Name) (entry : Nat) : Name := modules[entry]?.getD ⟨[]⟩

def entryAt (modules : List Name) (name : Name) : Nat := (indexOfName? modules name).getD 0

theorem nameAt_eq {modules : List Name} {entry : Nat} {name : Name}
    (here : modules[entry]? = some name) : nameAt modules entry = name := by
  rw [nameAt, here, Option.getD_some]

theorem entryAt_eq {modules : List Name} (distinct : modules.Nodup) {entry : Nat} {name : Name}
    (here : modules[entry]? = some name) : entryAt modules name = entry := by
  rw [entryAt, indexOfName?_of_nodup distinct here, Option.getD_some]

theorem imports_of_edge (valid : ValidLock lock)
    (h : resolveLockEntryImports (normalizedPackageLock lock).entries = .ok resolved)
    {node target : Nat} (edge : target ∈ importedEntries resolved node) :
    lock.Imports (nameAt ((normalizedPackageLock lock).entries.map (·.module)) node)
      (nameAt ((normalizedPackageLock lock).entries.map (·.module)) target) := by
  obtain ⟨owner, imported, here, there, imports⟩ := (mem_importedEntries valid h _ _).mp edge
  rw [nameAt_eq here, nameAt_eq there]
  exact imports

theorem edge_of_imports (valid : ValidLock lock)
    (h : resolveLockEntryImports (normalizedPackageLock lock).entries = .ok resolved)
    {owner imported : Name} (imports : lock.Imports owner imported) :
    entryAt ((normalizedPackageLock lock).entries.map (·.module)) imported ∈
      importedEntries resolved
        (entryAt ((normalizedPackageLock lock).entries.map (·.module)) owner) := by
  obtain ⟨original, horiginal, rfl, lockImport, himport, rfl⟩ := imports
  have normal : sortedImports original ∈ (normalizedPackageLock lock).entries :=
    mem_normalized.mpr ⟨original, horiginal, rfl⟩
  obtain ⟨imported, himported, importOf⟩ := resolveLockEntryImports_imports h normal
    (mem_sortedImports.mpr himport)
  obtain ⟨node, here⟩ : ∃ node : Nat,
      ((normalizedPackageLock lock).entries.map (·.module))[node]? = some original.module :=
    List.mem_iff_getElem?.mp (List.mem_map.mpr ⟨_, normal, rfl⟩)
  obtain ⟨target, there⟩ := List.mem_iff_getElem?.mp
    (List.mem_map_of_mem (f := PackageLockEntry.module) himported)
  rw [importOf.module] at there
  have distinct := normalized_nodup valid
  rw [entryAt_eq distinct here, entryAt_eq distinct there]
  exact (mem_importedEntries valid h _ _).mpr
    ⟨_, _, here, there, original, horiginal, rfl, lockImport, himport, rfl⟩

theorem cyclic_iff (valid : ValidLock lock)
    (h : resolveLockEntryImports (normalizedPackageLock lock).entries = .ok resolved) :
    (∃ node, TransGen (importEdges resolved).Leads node node) ↔
      ∃ name, TransGen lock.Imports name name := by
  constructor
  · rintro ⟨node, path⟩
    refine ⟨_, path.lift (nameAt ((normalizedPackageLock lock).entries.map (·.module))) ?_⟩
    exact fun _ _ edge => imports_of_edge valid h (mem_importedEntries_iff_edge.mpr edge)
  · rintro ⟨name, path⟩
    refine ⟨_, path.lift (entryAt ((normalizedPackageLock lock).entries.map (·.module))) ?_⟩
    exact fun _ _ imports => mem_importedEntries_iff_edge.mp (edge_of_imports valid h imports)

/-- An entry is reached over edges where its module is reached over imports. -/
theorem reaches_iff (valid : ValidLock lock)
    (h : resolveLockEntryImports (normalizedPackageLock lock).entries = .ok resolved)
    {start entry : Nat} {seed name : Name}
    (seedHere : ((normalizedPackageLock lock).entries.map (·.module))[start]? = some seed)
    (nameHere : ((normalizedPackageLock lock).entries.map (·.module))[entry]? = some name) :
    ReflTransGen (fun entry dependency => dependency ∈ importedEntries resolved entry) start entry ↔
      ReflTransGen lock.Imports seed name := by
  have distinct := normalized_nodup valid
  constructor
  · intro path
    rw [← nameAt_eq seedHere, ← nameAt_eq nameHere]
    exact path.lift _ fun _ _ edge => imports_of_edge valid h edge
  · intro path
    rw [← entryAt_eq distinct seedHere, ← entryAt_eq distinct nameHere]
    exact path.lift _ fun _ _ imports => edge_of_imports valid h imports

end Lock

/-! ### The indexed graph -/

def PackageLockGraphIndex.Leads (index : PackageLockGraphIndex) (entry dependency : Nat) : Prop :=
  dependency ∈ index.dependenciesByEntry[entry]?.getD []

/-- What an indexed graph says about the imports of its lock. -/
structure LockGraphExact (lock : PackageLockManifest) (indexed : IndexedPackageLockGraph) :
    Prop where
  order : indexed.graph.topologicalOrder.Perm (lock.entries.map (·.module))
  orderFirst : ∀ before name after, indexed.graph.topologicalOrder = before ++ name :: after →
    ∀ imported, lock.Imports name imported → imported ∈ before
  modules : indexed.index.moduleByEntry.Perm (lock.entries.map (·.module))
  entries : ∀ name entry, indexed.index.entryByModule name = some entry ↔
    indexed.index.moduleByEntry[entry]? = some name
  topologicalEntries :
    indexed.index.topologicalEntries.map (fun entry => indexed.index.moduleByEntry[entry]?) =
      indexed.graph.topologicalOrder.map some
  dependencies : ∀ entry dependency, indexed.index.Leads entry dependency ↔
    ∃ owner imported, indexed.index.moduleByEntry[entry]? = some owner ∧
      indexed.index.moduleByEntry[dependency]? = some imported ∧ lock.Imports owner imported
  distinctDependencies : ∀ entry : Nat,
    (indexed.index.dependenciesByEntry[entry]?.getD []).Nodup
  converse : ∀ entry dependent : Nat,
    dependent ∈ indexed.index.reverseDependenciesByEntry[entry]?.getD [] ↔
      indexed.index.Leads dependent entry
  distinctDependents : ∀ entry : Nat,
    (indexed.index.reverseDependenciesByEntry[entry]?.getD []).Nodup
  closure : ∀ seeds : List Name, (∀ seed ∈ seeds, seed ∈ lock.entries.map (·.module)) →
    ∃ selected, indexed.index.dependencyClosure seeds = .ok selected ∧
      ∀ entry name, indexed.index.moduleByEntry[entry]? = some name →
        (isSelected selected entry = true ↔ ∃ seed ∈ seeds, ReflTransGen lock.Imports seed name)
  partition : ∀ selected, (indexed.index.topologicalLayers selected).flatten.Perm
    (indexed.index.topologicalEntries.filter (isSelected selected))
  layers : ∀ selected length entry,
    entry ∈ (indexed.index.topologicalLayers selected)[length]?.getD [] ↔
      entry < indexed.index.moduleByEntry.length ∧
        LongestBelow indexed.index.Leads (fun entry => isSelected selected entry = true) length
          entry

/-- What an indexed graph was built from. -/
theorem buildIndexedPackageLockGraph_eq_ok {lock : PackageLockManifest}
    {indexed : IndexedPackageLockGraph} (h : buildIndexedPackageLockGraph lock = .ok indexed) :
    ∃ resolved nodes, ValidLock lock ∧
      resolveLockEntryImports (normalizedPackageLock lock).entries = .ok resolved ∧
      Prepared ((normalizedPackageLock lock).entries.map (·.module)) resolved nodes ∧
      buildNormalizedPackageLockGraph lock = .ok
        { normalizedLock := normalizedPackageLock lock
          graph := indexed.graph } ∧
      indexed =
        { lock := normalizedPackageLock lock
          graph :=
            { resolvedEntryImports := resolved
              topologicalOrder := nodes.map (lockEntryName (normalizedPackageLock lock).entries) }
          index := indexOf ((normalizedPackageLock lock).entries.map (·.module)) resolved nodes } := by
  simp only [buildIndexedPackageLockGraph, Result.bind_eq_ok, mapError_eq_ok] at h
  obtain ⟨product, hproduct, h⟩ := h
  have built := hproduct
  simp only [buildNormalizedPackageLockGraph, Result.bind_eq_ok, Except.ok.injEq] at hproduct
  obtain ⟨_, hvalid, resolved, hresolved, order, horder, rfl⟩ := hproduct
  have valid := validatePackageLockManifest_eq_ok.mp hvalid
  unfold lockTopologicalOrder at horder
  split at horder
  next nodes hnodes =>
    cases horder
    have prepared := prepared_of_order valid hresolved hnodes
    rw [buildFromValidated_eq prepared rfl] at h
    cases h
    exact ⟨resolved, nodes, valid, hresolved, prepared, built, rfl⟩
  next => cases horder

theorem lockGraphExact_of_ok {lock : PackageLockManifest} {indexed : IndexedPackageLockGraph}
    (h : buildIndexedPackageLockGraph lock = .ok indexed) : LockGraphExact lock indexed := by
  obtain ⟨resolved, nodes, valid, hresolved, prepared, built, rfl⟩ :=
    buildIndexedPackageLockGraph_eq_ok h
  obtain ⟨order, orderFirst⟩ := graph_order built
  have leads : ∀ entry dependency, PackageLockGraphIndex.Leads
      (indexOf ((normalizedPackageLock lock).entries.map (·.module)) resolved nodes) entry
        dependency ↔ dependency ∈ importedEntries resolved entry := by
    intro entry dependency
    rw [← forward_next prepared]
    rfl
  constructor
  case order => exact order
  case orderFirst => exact orderFirst
  case modules =>
    have sorted := (List.perm_insertionSort
      (fun left right : PackageLockEntry => nameLe left.module right.module) lock.entries).map
        (fun entry : PackageLockEntry => entry.module)
    change ((normalizedPackageLock lock).entries.map (·.module)).Perm _
    rw [normalizedPackageLock, List.map_map]
    exact sorted
  case entries =>
    exact fun name entry => ⟨indexOfName?_eq_some, indexOfName?_of_nodup prepared.named⟩
  case topologicalEntries =>
    rw [List.map_map]
    refine List.map_congr_left fun node mem => ?_
    have bound : node < (normalizedPackageLock lock).entries.length := by
      simpa using (prepared.complete node).mp mem
    change ((normalizedPackageLock lock).entries.map (·.module))[node]? = some (lockEntryName _ node)
    rw [List.getElem?_map, List.getElem?_eq_getElem bound,
      lockEntryName_eq (List.getElem?_eq_getElem bound), Option.map_some]
  case dependencies =>
    intro entry dependency
    rw [leads]
    exact mem_importedEntries valid hresolved entry dependency
  case distinctDependencies =>
    intro entry
    have next := forward_next prepared entry
    change (PackageLockGraphIndex.forward _).next entry |>.Nodup
    rw [next]
    exact prepared.distinct entry
  case converse =>
    intro entry dependent
    rw [leads]
    change dependent ∈ (table _ _)[entry]?.getD [] ↔ _
    rw [getElem?_table]
    split
    next =>
      rw [Option.getD_some, List.mem_filter, decide_eq_true_eq]
      constructor
      · exact fun found => found.2
      · -- an index beyond the entries imports nothing
        intro edge
        refine ⟨(prepared.complete dependent).mpr ?_, edge⟩
        by_contra outside
        rw [prepared.importedEntries_outside (Nat.le_of_not_lt outside)] at edge
        cases edge
    next outside =>
      simp only [Option.getD_none, List.not_mem_nil, false_iff]
      intro edge
      obtain ⟨_, _, _, there, _⟩ := (mem_importedEntries valid hresolved _ _).mp edge
      exact outside (List.getElem?_eq_some_iff.mp there).1
  case distinctDependents =>
    intro entry
    change ((table _ _)[entry]?.getD []).Nodup
    rw [getElem?_table]
    split
    next => exact prepared.nodup.filter _
    next => exact List.nodup_nil
  case closure =>
    intro seeds known
    have inModules : ∀ seed ∈ seeds,
        seed ∈ (normalizedPackageLock lock).entries.map (·.module) := by
      intro seed mem
      obtain ⟨entry, hentry, rfl⟩ := List.mem_map.mp (known seed mem)
      exact List.mem_map.mpr ⟨sortedImports entry, mem_normalized.mpr ⟨entry, hentry, rfl⟩, rfl⟩
    obtain ⟨selected, closed, reached⟩ := dependencyClosure_exact prepared seeds inModules
    -- paths between indices are paths between the modules at them
    refine ⟨selected, closed, fun entry name here => ?_⟩
    rw [reached entry (List.getElem?_eq_some_iff.mp here).1]
    constructor
    · rintro ⟨start, ⟨seed, mem, seedHere⟩, path⟩
      exact ⟨seed, mem, (reaches_iff valid hresolved seedHere here).mp path⟩
    · rintro ⟨seed, mem, path⟩
      obtain ⟨start, seedHere⟩ := List.mem_iff_getElem?.mp (inModules seed mem)
      exact ⟨start, ⟨seed, mem, seedHere⟩, (reaches_iff valid hresolved seedHere here).mpr path⟩
  case partition => exact fun selected => (topologicalLayers_exact prepared selected).1
  case layers =>
    intro selected length entry
    have same : PackageLockGraphIndex.Leads
        (indexOf ((normalizedPackageLock lock).entries.map (·.module)) resolved nodes) =
          fun entry dependency => dependency ∈ importedEntries resolved entry := by
      funext entry dependency
      exact propext (leads entry dependency)
    rw [same]
    exact (topologicalLayers_exact prepared selected).2 length entry

/-- A lock and its reorderings are indexed alike. -/
theorem buildIndexedPackageLockGraph_reordered {lock other : PackageLockManifest}
    (valid : ValidLock lock) (h : Reordered lock other) :
    buildIndexedPackageLockGraph other = buildIndexedPackageLockGraph lock := by
  have normal := normalizedPackageLock_reordered valid h
  have accepted : validatePackageLockManifest lock = .ok () :=
    validatePackageLockManifest_eq_ok.mpr valid
  have accepted' : validatePackageLockManifest other = .ok () :=
    validatePackageLockManifest_eq_ok.mpr (valid.reordered h)
  rw [buildIndexedPackageLockGraph, buildIndexedPackageLockGraph, buildNormalizedPackageLockGraph,
    buildNormalizedPackageLockGraph, accepted, accepted', normal]

theorem buildIndexedPackageLockGraph_exact {lock : PackageLockManifest}
    (accepted : validatePackageLockManifest lock = .ok ()) (resolves : LockImportsResolve lock) :
    ((∃ error, buildIndexedPackageLockGraph lock = .error (.lock error) ∧
        error.reasonCode = .lockImportCycle) ↔ ∃ name, TransGen lock.Imports name name) ∧
      ((¬∃ name, TransGen lock.Imports name name) →
        ∃ indexed, buildIndexedPackageLockGraph lock = .ok indexed ∧ LockGraphExact lock indexed) ∧
      ∀ other, Reordered lock other →
        buildIndexedPackageLockGraph other = buildIndexedPackageLockGraph lock := by
  have valid := validatePackageLockManifest_eq_ok.mp accepted
  obtain ⟨resolved, hresolved⟩ := resolveNormalized_exists valid resolves
  have succeeds := DepthFirst.order_isOk_iff (importEdges_inRange hresolved)
  have cyclic := cyclic_iff valid hresolved
  have outcome : buildNormalizedPackageLockGraph lock =
      (lockTopologicalOrder (normalizedPackageLock lock).entries resolved >>= fun order => .ok
        { normalizedLock := normalizedPackageLock lock
          graph := { resolvedEntryImports := resolved, topologicalOrder := order } }) := by
    rw [buildNormalizedPackageLockGraph, accepted, Result.ok_bind]
    dsimp only
    rw [hresolved, Result.ok_bind]
  refine and_assoc.mp ⟨?_, fun other h => buildIndexedPackageLockGraph_reordered valid h⟩
  cases horder : DepthFirst.order (importEdges resolved) with
  | error cycle =>
    have found : ∃ name, TransGen lock.Imports name name := by
      refine cyclic.mp (by_contra fun none => ?_)
      obtain ⟨nodes, ok⟩ := succeeds.mpr fun node path => none ⟨node, path⟩
      rw [horder] at ok
      cases ok
    have fails : buildIndexedPackageLockGraph lock = .error
        (.lock (lockCycleError (normalizedPackageLock lock).entries cycle)) := by
      rw [buildIndexedPackageLockGraph, outcome, lockTopologicalOrder]
      change DepthFirst.order (importEdges resolved) = _ at horder
      unfold importEdges at horder
      rw [horder]
      rfl
    exact ⟨⟨fun _ => found, fun _ => ⟨_, fails, rfl⟩⟩, fun none => absurd found none⟩
  | ok nodes =>
    have acyclic : ¬∃ name, TransGen lock.Imports name name := by
      intro found
      obtain ⟨node, path⟩ := cyclic.mpr found
      exact succeeds.mp ⟨nodes, horder⟩ node path
    have prepared := prepared_of_order valid hresolved horder
    have built : buildIndexedPackageLockGraph lock = .ok
        { lock := normalizedPackageLock lock
          graph :=
            { resolvedEntryImports := resolved
              topologicalOrder := nodes.map (lockEntryName (normalizedPackageLock lock).entries) }
          index := indexOf ((normalizedPackageLock lock).entries.map (·.module)) resolved nodes } := by
      rw [buildIndexedPackageLockGraph, outcome, lockTopologicalOrder]
      unfold importEdges at horder
      rw [horder]
      exact buildFromValidated_eq prepared rfl
    refine ⟨⟨?_, fun found => absurd found acyclic⟩, fun _ => ⟨_, built, lockGraphExact_of_ok built⟩⟩
    rintro ⟨error, fails, -⟩
    rw [built] at fails
    cases fails

theorem buildIndexedPackageLockGraph_exact_app :
    ∃ indexed, buildIndexedPackageLockGraph appLock = .ok indexed ∧
      LockGraphExact appLock indexed := by
  have accepted : validatePackageLockManifest appLock = .ok () :=
    Result.ok_of_toOption (by decide +kernel)
  have resolves : LockImportsResolve appLock := by
    intro entry mem lockImport himport
    simp only [appLock, List.mem_cons, List.not_mem_nil, or_false] at mem
    rcases mem with rfl | rfl | rfl
    · obtain rfl := List.mem_singleton.mp himport
      exact ⟨baseEntry, by simp [appLock], ⟨rfl, rfl, rfl⟩, by simp [baseEntry]⟩
    · obtain rfl := List.mem_singleton.mp himport
      exact ⟨coreEntry, by simp [appLock], ⟨rfl, rfl, rfl⟩, by simp [coreEntry]⟩
    · cases himport
  have exact := buildIndexedPackageLockGraph_exact accepted resolves
  refine exact.2.1 fun cyclic => ?_
  obtain ⟨error, fails, -⟩ := exact.1.mpr cyclic
  have succeeds : (buildIndexedPackageLockGraph appLock).toOption.isSome = true := by
    decide +kernel
  rw [fails] at succeeds
  cases succeeds

end NpaCore.Package
