import NpaCore.Package.AuditSelection

/-!
# What an audit selects

The walks along dependents reach what depends on their origin, whatever the marks of earlier
origins; from this the reasons of each module, and the modules that are skipped.

## Main result

`auditSelections_exact`: which modules are selected, with which reasons, and in which order.
-/

namespace NpaCore.Package

open NpaCore.OrderedMap
open NpaCore.Wire (Name)
open Relation (ReflTransGen TransGen)
open Exploration (Reached)

/-! ### Orders -/

instance : Std.TransCmp nameCmp := inferInstanceAs (Std.TransCmp (compareOn Name.components))

theorem nameCmp_lawful (a b : Name) (same : nameCmp a b = .eq) : a = b := by
  cases a
  cases b
  exact congrArg Name.mk (Std.LawfulEqOrd.eq_of_compare same)

instance : Std.TransCmp PackageAuditChangeKind.cmp :=
  inferInstanceAs (Std.TransCmp (compareOn PackageAuditChangeKind.ctorIdx))

theorem PackageAuditChangeKind.cmp_lawful (a b : PackageAuditChangeKind) (same : a.cmp b = .eq) :
    a = b := by
  have index : a.ctorIdx = b.ctorIdx := Std.LawfulEqOrd.eq_of_compare same
  cases a <;> cases b <;> first | rfl | cases index

instance : Std.TransCmp PackageAuditSelectionReason.cmp :=
  inferInstanceAs (Std.TransCmp (compareLex (compareOn PackageAuditSelectionReason.ctorIdx)
    (compareOn PackageAuditSelectionReason.dependencyComponents)))

theorem PackageAuditSelectionReason.cmp_lawful (a b : PackageAuditSelectionReason)
    (same : a.cmp b = .eq) : a = b := by
  obtain ⟨first, second⟩ := Ordering.then_eq_eq.mp same
  have index : a.ctorIdx = b.ctorIdx := Std.LawfulEqOrd.eq_of_compare first
  have components : a.dependencyComponents = b.dependencyComponents :=
    Std.LawfulEqOrd.eq_of_compare second
  cases a <;> cases b <;> first | rfl | cases index
  exact congrArg (fun components => reverseDependencyOfExportChange ⟨components⟩) components

instance : Std.TransCmp PackageCacheAwareLiveReason.cmp :=
  inferInstanceAs (Std.TransCmp (compareLex (compareOn PackageCacheAwareLiveReason.ctorIdx)
    (compareOn PackageCacheAwareLiveReason.dependencyComponents)))

theorem PackageCacheAwareLiveReason.cmp_lawful (a b : PackageCacheAwareLiveReason)
    (same : a.cmp b = .eq) : a = b := by
  obtain ⟨first, second⟩ := Ordering.then_eq_eq.mp same
  have index : a.ctorIdx = b.ctorIdx := Std.LawfulEqOrd.eq_of_compare first
  have components : a.dependencyComponents = b.dependencyComponents :=
    Std.LawfulEqOrd.eq_of_compare second
  cases a <;> cases b <;> first | rfl | cases index
  exact congrArg (fun components => reverseDependencyOfDirty ⟨components⟩) components

/-! ### Dependents -/

variable {visited : EntryEpochMarks} {module : Name}

section Dependents

variable {lock : PackageLockManifest} {indexed : IndexedPackageLockGraph}

theorem LockGraphExact.imported_known (exact : LockGraphExact lock indexed) {owner imported : Name}
    (imports : lock.Imports owner imported) :
    owner ∈ lock.entries.map (·.module) ∧ imported ∈ lock.entries.map (·.module) := by
  have known : owner ∈ lock.entries.map (·.module) := by
    obtain ⟨entry, mem, rfl, -⟩ := imports
    exact List.mem_map_of_mem (f := PackageLockEntry.module) mem
  refine ⟨known, ?_⟩
  obtain ⟨before, after, split⟩ := List.mem_iff_append.mp (exact.order.mem_iff.mpr known)
  have earlier := exact.orderFirst before owner after split imported imports
  exact exact.order.mem_iff.mp (split ▸ List.mem_append_left _ earlier)

/-- The entry of a module of the lock. -/
theorem LockGraphExact.exists_entry (exact : LockGraphExact lock indexed) {name : Name}
    (known : name ∈ lock.entries.map (·.module)) :
    ∃ entry : Nat, indexed.index.moduleByEntry[entry]? = some name :=
  List.mem_iff_getElem?.mp (exact.modules.mem_iff.mpr known)

/-- A chain of entries is a chain of imports. -/
theorem LockGraphExact.leads_iff (exact : LockGraphExact lock indexed) {entry dependent : Nat}
    {module name : Name} (here : indexed.index.moduleByEntry[entry]? = some module)
    (there : indexed.index.moduleByEntry[dependent]? = some name) :
    TransGen (Function.swap indexed.index.Leads) entry dependent ↔
      TransGen lock.Imports name module := by
  rw [Relation.transGen_swap]
  constructor
  · intro path
    rw [← nameAt_eq here, ← nameAt_eq there]
    refine path.lift _ fun owner imported edge => ?_
    obtain ⟨ownerName, importedName, first, second, imports⟩ := (exact.dependencies _ _).mp edge
    change lock.Imports (nameAt _ owner) (nameAt _ imported)
    rw [nameAt_eq first, nameAt_eq second]
    exact imports
  · intro path
    have entryOf : ∀ {name : Name} {entry : Nat},
        indexed.index.moduleByEntry[entry]? = some name →
          (indexed.index.entryByModule name).getD 0 = entry := by
      intro name entry here
      rw [(exact.entries name entry).mpr here, Option.getD_some]
    rw [← entryOf here, ← entryOf there]
    refine path.lift (fun name => (indexed.index.entryByModule name).getD 0) ?_
    intro owner imported imports
    obtain ⟨ownerKnown, importedKnown⟩ := exact.imported_known imports
    obtain ⟨first, hfirst⟩ := exact.exists_entry ownerKnown
    obtain ⟨second, hsecond⟩ := exact.exists_entry importedKnown
    change indexed.index.Leads ((indexed.index.entryByModule owner).getD 0)
      ((indexed.index.entryByModule imported).getD 0)
    rw [entryOf hfirst, entryOf hsecond]
    exact (exact.dependencies _ _).mpr ⟨owner, imported, hfirst, hsecond, imports⟩

/-- No mark is from an epoch to come, and each entry has one. -/
structure EntryEpochMarks.Fresh (size : Nat) (visited : EntryEpochMarks) : Prop where
  length : visited.marks.length = size
  past : ∀ mark ∈ visited.marks, mark ≤ visited.epoch

theorem EntryEpochMarks.new_fresh (size : Nat) : (EntryEpochMarks.new size).Fresh size :=
  ⟨List.length_replicate .., fun _ mem => Nat.le_of_eq (List.eq_of_mem_replicate mem)⟩

theorem EntryEpochMarks.Fresh.mark {size : Nat} (fresh : visited.Fresh size) (entry : Nat) :
    (EntryEpochMarks.marking.mark visited entry).Fresh size := by
  refine ⟨(List.length_set ..).trans fresh.length, fun mark mem => ?_⟩
  rcases List.mem_or_eq_of_mem_set mem with mem | rfl
  · exact fresh.past mark mem
  · exact Nat.le_refl _

/-- When an origin begins, no entry is marked. -/
theorem EntryEpochMarks.Fresh.beginOrigin {size : Nat} (fresh : visited.Fresh size) :
    visited.beginOrigin.Fresh size ∧
      ∀ entry, EntryEpochMarks.marking.isMarked visited.beginOrigin entry = true ↔ size ≤ entry := by
  refine ⟨⟨fresh.length, fun mark mem => Nat.le_succ_of_le (fresh.past mark mem)⟩, fun entry => ?_⟩
  change (visited.marks[entry]?).all (· == visited.epoch + 1) = true ↔ _
  rw [← fresh.length, ← List.getElem?_eq_none_iff]
  cases here : visited.marks[entry]? with
  | none => simp
  | some mark =>
    have past := fresh.past mark (List.mem_of_getElem? here)
    simp
    omega

variable {size : Nat}

/-- The entries that are worked on are those that lead to the origin. -/
theorem mem_taken_reverse (exact : LockGraphExact lock indexed)
    (sized : indexed.index.moduleByEntry.length = size)
    (fresh : visited.Fresh size) (entry dependent : Nat) :
    dependent ∈ indexed.index.reverse.taken
        (indexed.index.reverse.look entry { pending := [], marks := visited.beginOrigin }) ↔
      TransGen (Function.swap indexed.index.Leads) entry dependent := by
  have next : ∀ entry dependent, dependent ∈ indexed.index.reverse.next entry ↔
      indexed.index.Leads dependent entry := exact.converse
  have bounded : ∀ {entry dependent : Nat}, indexed.index.Leads dependent entry →
      dependent < size ∧ entry < size := by
    intro entry dependent leads
    obtain ⟨_, _, here, there, _⟩ := (exact.dependencies _ _).mp leads
    rw [← sized]
    exact ⟨(List.getElem?_eq_some_iff.mp here).1, (List.getElem?_eq_some_iff.mp there).1⟩
  have unmarked : ∀ entry, indexed.index.reverse.isMarked visited.beginOrigin entry = true ↔
      size ≤ entry := fresh.beginOrigin.2
  -- At the start the dependents of the origin are marked, and the numbers that are no entries.
  have marked : ∀ other, indexed.index.reverse.isMarked
      (indexed.index.reverse.look entry { pending := [], marks := visited.beginOrigin }).marks
        other = true ↔ indexed.index.Leads other entry ∨ size ≤ other := by
    intro other
    rw [Flood.look, Flood.isMarked_foldl, next, unmarked]
  have pending : ∀ other, other ∈
      (indexed.index.reverse.look entry { pending := [], marks := visited.beginOrigin }).pending ↔
        indexed.index.Leads other entry := by
    intro other
    rw [Flood.look, Flood.mem_pending_foldl, next, ← Bool.not_eq_true, unmarked, Nat.not_le]
    constructor
    · rintro (none | ⟨leads, -⟩)
      · cases none
      · exact leads
    · exact fun leads => .inr ⟨leads, (bounded leads).1⟩
  have filled := Flood.isMarked_fill indexed.index.reverse
    (indexed.index.reverse.look entry { pending := [], marks := visited.beginOrigin })
    (fun other waits => (marked other).mpr (.inl ((pending other).mp waits)))
    (by
      intro other isMarked
      rcases (marked other).mp isMarked with leads | outside
      · exact .inl ((pending other).mpr leads)
      · refine .inr fun further step => ?_
        exact absurd (bounded ((next _ _).mp step)).2 (Nat.not_lt_of_le outside))
  have reached : ∀ start, indexed.index.Leads start entry → ∀ other,
      ReflTransGen (fun key other => other ∈ indexed.index.reverse.next key) start other →
        TransGen (Function.swap indexed.index.Leads) entry other := by
    intro start leads other path
    induction path with
    | refl => exact .single leads
    | tail _ step ih => exact ih.tail ((next _ _).mp step)
  rw [Flood.mem_taken, pending, ← Bool.not_eq_true, marked, filled]
  constructor
  · rintro (leads | ⟨fresh, start, first, path⟩)
    · exact .single leads
    · rcases (marked start).mp first with leads | outside
      · exact reached start leads dependent path
      · -- Nothing leads on from a number that is no entry.
        rcases path.cases_head with rfl | ⟨_, step, _⟩
        · exact absurd (.inr outside) fresh
        · exact absurd (bounded ((next _ _).mp step)).2 (Nat.not_lt_of_le outside)
  · intro path
    by_cases direct : indexed.index.Leads dependent entry
    · exact .inl direct
    · obtain ⟨start, leads, rest⟩ := TransGen.head'_iff.mp path
      refine .inr ⟨?_, start, (marked start).mpr (.inl leads), ?_⟩
      · rintro (leads | outside)
        · exact direct leads
        · rcases TransGen.tail'_iff.mp path with ⟨_, _, step⟩
          exact absurd (bounded step).1 (Nat.not_lt_of_le outside)
      · exact rest.lift id fun _ _ step => (next _ _).mpr step

/-- The work of one origin: what depends on its module, each worked on. -/
theorem workOnDependents_eq (exact : LockGraphExact lock indexed)
    (sized : indexed.index.moduleByEntry.length = size) (fresh : visited.Fresh size) {entry : Nat}
    (here : indexed.index.moduleByEntry[entry]? = some module) {R : Type} (act : R → Name → R)
    (result : R) :
    ∃ (dependents : List Name) (visited' : EntryEpochMarks), visited'.Fresh size ∧
      (∀ name, name ∈ dependents ↔ TransGen lock.Imports name module) ∧
      indexed.index.workOnDependents act result visited entry =
        (dependents.foldl act result, visited') := by
  have keeps : ∀ (marks : EntryEpochMarks) (key : Nat),
      indexed.index.reverse.isMarked marks key = false → marks.Fresh size →
        (indexed.index.reverse.mark marks key).Fresh size := fun _ key _ fresh => fresh.mark key
  refine ⟨(indexed.index.reverse.taken (indexed.index.reverse.look entry
      { pending := [], marks := visited.beginOrigin })).map (nameAt indexed.index.moduleByEntry),
    indexed.index.reverse.fill (indexed.index.reverse.look entry
      { pending := [], marks := visited.beginOrigin }), ?_, fun name => ?_, ?_⟩
  · refine Flood.fill_preserves _ (P := EntryEpochMarks.Fresh size) _ keeps ?_
    exact Flood.foldl_preserves keeps fresh.beginOrigin.1
  · rw [List.mem_map]
    constructor
    · rintro ⟨dependent, mem, rfl⟩
      have path := (mem_taken_reverse exact sized fresh _ _).mp mem
      obtain ⟨_, _, step⟩ := TransGen.tail'_iff.mp path
      obtain ⟨owner, _, there, _⟩ := (exact.dependencies _ _).mp step
      rw [nameAt_eq there]
      exact (exact.leads_iff here there).mp path
    · intro path
      obtain ⟨_, step, _⟩ := TransGen.head'_iff.mp path
      obtain ⟨dependent, there⟩ := exact.exists_entry (exact.imported_known step).1
      refine ⟨dependent, ?_, nameAt_eq there⟩
      exact (mem_taken_reverse exact sized fresh _ _).mpr ((exact.leads_iff here there).mpr path)
  · rw [PackageLockGraphIndex.workOnDependents, Flood.work_eq, List.foldl_map]

end Dependents

/-! ### Changes -/

def Changed (changed : List PackageAuditChangedModule) (module : Name) : Prop :=
  ∃ changedModule ∈ changed, changedModule.module = module

def HasChange (changed : List PackageAuditChangedModule) (module : Name)
    (kind : PackageAuditChangeKind) : Prop :=
  ∃ changedModule ∈ changed, changedModule.module = module ∧ kind ∈ changedModule.changes

/-- The same modules changed, each in the same ways altogether. -/
structure SameChanges (changed other : List PackageAuditChangedModule) : Prop where
  modules : ∀ module, Changed changed module ↔ Changed other module
  changes : ∀ module kind, HasChange changed module kind ↔ HasChange other module kind

theorem merged_holds (changed : List PackageAuditChangedModule) :
    Holds nameCmp PackageAuditChangeKind.cmp (Changed changed) (HasChange changed)
      (changed.foldl (fun merged changedModule => extendAt nameCmp PackageAuditChangeKind.cmp
        changedModule.module changedModule.changes merged) []) := by
  have holds := Holds.empty.foldl_extendAt nameCmp_lawful PackageAuditChangeKind.cmp_lawful
    PackageAuditChangedModule.module PackageAuditChangedModule.changes changed
  exact holds.congr (fun _ => or_iff_left id) fun _ _ => or_iff_left id

theorem normalizeChangedModules_congr {changed other : List PackageAuditChangedModule}
    (same : SameChanges changed other) :
    normalizeChangedModules other = normalizeChangedModules changed := by
  have holds := (merged_holds other).congr (fun module => (same.modules module).symm)
    fun module kind => (same.changes module kind).symm
  rw [normalizeChangedModules, normalizeChangedModules, holds.unique (merged_holds changed)]

theorem changed_normalize (changed : List PackageAuditChangedModule) (module : Name) :
    Changed (normalizeChangedModules changed) module ↔ Changed changed module := by
  rw [← (merged_holds changed).mem_keys]
  simp [Changed, normalizeChangedModules]

theorem hasChange_normalize (changed : List PackageAuditChangedModule) (module : Name)
    (kind : PackageAuditChangeKind) :
    HasChange (normalizeChangedModules changed) module kind ↔ HasChange changed module kind := by
  have holds := merged_holds changed
  constructor
  · rintro ⟨_, mem, rfl, change⟩
    obtain ⟨entry, here, rfl⟩ := List.mem_map.mp mem
    exact ((holds.sets entry.1 entry.2 here).2 kind).mp change
  · intro change
    obtain ⟨entry, here, rfl⟩ := List.mem_map.mp ((holds.mem_keys module).mpr
      (holds.known module kind change))
    exact ⟨_, List.mem_map_of_mem here, rfl, ((holds.sets entry.1 entry.2 here).2 kind).mpr change⟩

variable {changed : List PackageAuditChangedModule}

/-- In a normalized list each module stands once, with all its changes. -/
theorem mem_changes_normalize {changedModule : PackageAuditChangedModule}
    (mem : changedModule ∈ normalizeChangedModules changed) (kind : PackageAuditChangeKind) :
    kind ∈ changedModule.changes ↔ HasChange changed changedModule.module kind := by
  obtain ⟨entry, here, rfl⟩ := List.mem_map.mp mem
  exact ((merged_holds changed).sets entry.1 entry.2 here).2 kind

theorem validateChangedModules_eq_ok {entryModules : List Name} :
    validateChangedModules entryModules changed = .ok () ↔
      ∀ changedModule ∈ changed, changedModule.module ∈ entryModules ∧ changedModule.changes ≠ [] := by
  rw [validateChangedModules, Result.forEach_eq_ok]
  constructor
  · intro each changedModule mem
    obtain ⟨index, here⟩ := List.mem_iff_getElem?.mp mem
    have checked := each (changedModule, index) (List.mk_mem_zipIdx_iff_getElem?.mpr here)
    simpa [Result.bind_eq_ok] using checked
  · rintro each ⟨changedModule, index⟩ mem
    have here := List.mk_mem_zipIdx_iff_getElem?.mp mem
    simpa [Result.bind_eq_ok] using each changedModule (List.mem_of_getElem? here)

theorem changedContainsAny_iff {kind : PackageAuditChangeKind} :
    changedContainsAny changed kind = true ↔ ∃ module, HasChange changed module kind := by
  simp [changedContainsAny, HasChange]

/-! ### Reasons -/

section Reasons

variable {lock : PackageLockManifest} {indexed : IndexedPackageLockGraph}

abbrev HoldsReasons : (Name → PackageAuditSelectionReason → Prop) → SelectedReasons → Prop :=
  HoldsSets nameCmp PackageAuditSelectionReason.cmp

theorem selectAll_holds {members : Name → PackageAuditSelectionReason → Prop}
    {selected : SelectedReasons} (holds : HoldsReasons members selected)
    (topologicalOrder : List Name) (reason : PackageAuditSelectionReason) :
    HoldsReasons (fun module other => module ∈ topologicalOrder ∧ other = reason ∨
      members module other) (selectAll topologicalOrder selected reason) :=
  HoldsSets.foldl_extendAt nameCmp_lawful PackageAuditSelectionReason.cmp_lawful holds _ _

/-- What is required of all modules when some module has the change. -/
def Required (changed : List PackageAuditChangedModule) (topologicalOrder : List Name)
    (changes : List (PackageAuditChangeKind × PackageAuditSelectionReason)) (module : Name)
    (reason : PackageAuditSelectionReason) : Prop :=
  module ∈ topologicalOrder ∧
    ∃ change ∈ changes, (∃ other, HasChange changed other change.1) ∧ reason = change.2

theorem required_cons {topologicalOrder : List Name}
    {change : PackageAuditChangeKind × PackageAuditSelectionReason}
    {rest : List (PackageAuditChangeKind × PackageAuditSelectionReason)}
    {reason : PackageAuditSelectionReason} :
    Required changed topologicalOrder (change :: rest) module reason ↔
      (module ∈ topologicalOrder ∧ (∃ other, HasChange changed other change.1) ∧
        reason = change.2) ∨ Required changed topologicalOrder rest module reason := by
  rw [Required, List.exists_mem_cons_iff, and_or_left, Required]

/-- The loop over the global changes. -/
theorem selectChanges_holds (topologicalOrder : List Name)
    (changed : List PackageAuditChangedModule)
    (changes : List (PackageAuditChangeKind × PackageAuditSelectionReason))
    (members : Name → PackageAuditSelectionReason → Prop) (selected : SelectedReasons)
    (holds : HoldsReasons members selected) :
    HoldsReasons
      (fun module reason => Required changed topologicalOrder changes module reason ∨
        members module reason)
      (changes.foldl (fun selected (kind, reason) =>
        if changedContainsAny changed kind then selectAll topologicalOrder selected reason
        else selected) selected) := by
  induction changes generalizing members selected with
  | nil => exact holds.congr (by simp [Required])
  | cons change rest ih =>
    rw [List.foldl_cons]
    dsimp only
    split
    next any =>
      refine (ih _ _ (selectAll_holds holds topologicalOrder change.2)).congr fun module reason => ?_
      rw [required_cons, and_iff_right (changedContainsAny_iff.mp any), or_assoc, or_left_comm]
    next none =>
      refine (ih _ _ holds).congr fun module reason => ?_
      rw [required_cons, or_iff_right fun first : _ ∧ _ ∧ _ =>
        none (changedContainsAny_iff.mpr first.2.1)]

theorem selectGlobal_holds (topologicalOrder : List Name)
    (changed : List PackageAuditChangedModule) :
    HoldsReasons (Required changed topologicalOrder globalChanges)
      (selectGlobal topologicalOrder changed []) := by
  have held := selectChanges_holds topologicalOrder changed globalChanges _ [] HoldsSets.empty
  exact held.congr fun _ _ => or_iff_left id

/-! ### The loop over the changed modules -/

/-- A reason that one changed module gives. -/
def Gives (lock : PackageLockManifest) (changedModule : PackageAuditChangedModule) (module : Name)
    (reason : PackageAuditSelectionReason) : Prop :=
  module = changedModule.module ∧ reason = .explicitlyChanged ∨
    .exportHashChanged ∈ changedModule.changes ∧
      TransGen lock.Imports module changedModule.module ∧
        reason = .reverseDependencyOfExportChange changedModule.module

/-- A dependent of a module whose export hash stayed, while another hash changed. -/
def Skips (lock : PackageLockManifest) (changedModule : PackageAuditChangedModule) (module : Name) :
    Prop :=
  .exportHashChanged ∉ changedModule.changes ∧
    (.certificateHashChanged ∈ changedModule.changes ∨
      .certificateFileHashChanged ∈ changedModule.changes ∨
        .axiomReportHashChanged ∈ changedModule.changes) ∧
      TransGen lock.Imports module changedModule.module

structure HoldsState (size : Nat) (members : Name → PackageAuditSelectionReason → Prop)
    (skips : Name → Prop) (axioms : Prop) (state : SelectionState) : Prop where
  selected : HoldsReasons members state.selected
  skippedSorted : state.skipped.Pairwise fun a b => nameCmp a b = .lt
  skipped : ∀ module, module ∈ state.skipped ↔ skips module
  axiomChecks : state.axiomArtifactChecksRequired = true ↔ axioms
  marks : state.reverseMarks.Fresh size

theorem HoldsState.congr {size : Nat} {members members' : Name → PackageAuditSelectionReason → Prop}
    {skips skips' : Name → Prop} {axioms axioms' : Prop} {state : SelectionState}
    (holds : HoldsState size members skips axioms state)
    (sameMembers : ∀ module reason, members module reason ↔ members' module reason)
    (sameSkips : ∀ module, skips module ↔ skips' module) (sameAxioms : axioms ↔ axioms') :
    HoldsState size members' skips' axioms' state where
  selected := holds.selected.congr sameMembers
  skippedSorted := holds.skippedSorted
  skipped module := (holds.skipped module).trans (sameSkips module)
  axiomChecks := holds.axiomChecks.trans sameAxioms
  marks := holds.marks

variable {size : Nat} {members : Name → PackageAuditSelectionReason → Prop} {skips : Name → Prop}
  {axioms : Prop} {state : SelectionState}

theorem indexedReverseDependencyClosure_eq (exact : LockGraphExact lock indexed)
    (sized : indexed.index.moduleByEntry.length = size)
    (fresh : visited.Fresh size) (known : module ∈ lock.entries.map (·.module)) :
    ∃ closure visited', visited'.Fresh size ∧
      (∀ name, name ∈ closure ↔ TransGen lock.Imports name module) ∧
      indexedReverseDependencyClosure indexed module visited = (closure, visited') := by
  obtain ⟨entry, here⟩ := exact.exists_entry known
  obtain ⟨dependents, visited', fresh', reached, worked⟩ := workOnDependents_eq exact sized fresh
    here (fun closure dependent => insertKey nameCmp dependent closure) []
  refine ⟨dependents.foldl (fun closure dependent => insertKey nameCmp dependent closure) [],
    visited', fresh', fun name => ?_, ?_⟩
  · rw [mem_foldl_insertKey nameCmp_lawful, reached]
    exact or_iff_left List.not_mem_nil
  · rw [indexedReverseDependencyClosure, (exact.entries module entry).mpr here]
    exact worked

/-- What one changed module adds to the state. -/
theorem selectChangedModule_holds (exact : LockGraphExact lock indexed)
    (sized : indexed.index.moduleByEntry.length = size)
    (holds : HoldsState size members skips axioms state)
    {changedModule : PackageAuditChangedModule}
    (known : changedModule.module ∈ lock.entries.map (·.module)) :
    HoldsState size
      (fun module reason => Gives lock changedModule module reason ∨ members module reason)
      (fun module => Skips lock changedModule module ∨ skips module)
      (.axiomReportHashChanged ∈ changedModule.changes ∨ axioms)
      (selectChangedModule indexed state changedModule) := by
  obtain ⟨closure, visited', fresh', reached, found⟩ := indexedReverseDependencyClosure_eq exact
    sized holds.marks known
  have explicitly := HoldsSets.extendAt nameCmp_lawful PackageAuditSelectionReason.cmp_lawful
    holds.selected changedModule.module .explicitlyChanged
  have axiomChecks : (state.axiomArtifactChecksRequired ||
      changedModule.changes.contains .axiomReportHashChanged) = true ↔
        .axiomReportHashChanged ∈ changedModule.changes ∨ axioms := by
    rw [Bool.or_eq_true, holds.axiomChecks, List.contains_iff_mem, or_comm]
  unfold selectChangedModule
  dsimp only
  rw [found]
  dsimp only
  simp only [Bool.or_eq_true, List.contains_iff_mem]
  split
  next exported =>
    -- the exports changed: every dependent is selected, for this module
    have dependents := HoldsSets.foldl_extendAt nameCmp_lawful
      PackageAuditSelectionReason.cmp_lawful explicitly closure
        (.reverseDependencyOfExportChange changedModule.module)
    constructor
    case selected =>
      refine dependents.congr fun module reason => ?_
      rw [Gives, and_iff_right exported, reached, or_left_comm, or_assoc]
    case skippedSorted => exact holds.skippedSorted
    case skipped =>
      intro module
      rw [holds.skipped, or_iff_right fun skip : Skips .. => skip.1 exported]
    case axiomChecks => exact axiomChecks
    case marks => exact fresh'
  next stable =>
    -- the exports did not: the dependents are skipped where another hash changed
    have selected : HoldsReasons
        (fun module reason => Gives lock changedModule module reason ∨ members module reason)
        (selectReason state.selected changedModule.module .explicitlyChanged) := by
      refine explicitly.congr fun module reason => ?_
      rw [Gives, or_iff_left fun dependent : _ ∧ _ => stable dependent.1]
    split
    next kinds =>
      constructor
      case selected => exact selected
      case skippedSorted => exact foldl_insertKey_pairwise nameCmp_lawful holds.skippedSorted
      case skipped =>
        intro module
        rw [mem_foldl_insertKey nameCmp_lawful, reached, holds.skipped, Skips, and_iff_right stable,
          and_iff_right (or_assoc.mp kinds)]
      case axiomChecks => exact axiomChecks
      case marks => exact fresh'
    next others =>
      constructor
      case selected => exact selected
      case skippedSorted => exact holds.skippedSorted
      case skipped =>
        intro module
        rw [holds.skipped, or_iff_right fun skip : Skips .. => others (or_assoc.mpr skip.2.1)]
      case axiomChecks => exact axiomChecks
      case marks => exact holds.marks

theorem selectChangedModules_holds (exact : LockGraphExact lock indexed)
    (sized : indexed.index.moduleByEntry.length = size) (changed : List PackageAuditChangedModule)
    (known : ∀ changedModule ∈ changed, changedModule.module ∈ lock.entries.map (·.module))
    (holds : HoldsState size members skips axioms state) :
    HoldsState size
      (fun module reason => (∃ changedModule ∈ changed, Gives lock changedModule module reason) ∨
        members module reason)
      (fun module => (∃ changedModule ∈ changed, Skips lock changedModule module) ∨ skips module)
      ((∃ changedModule ∈ changed, .axiomReportHashChanged ∈ changedModule.changes) ∨ axioms)
      (changed.foldl (selectChangedModule indexed) state) := by
  induction changed generalizing members skips axioms state with
  | nil => exact holds.congr (by simp) (by simp) (by simp)
  | cons changedModule rest ih =>
    rw [List.forall_mem_cons] at known
    refine (ih known.2 (selectChangedModule_holds exact sized holds known.1)).congr ?_ ?_ ?_
    · intro module reason
      rw [List.exists_mem_cons_iff, or_left_comm, or_assoc]
    · intro module
      rw [List.exists_mem_cons_iff, or_left_comm, or_assoc]
    · rw [List.exists_mem_cons_iff, or_left_comm, or_assoc]

/-! ### The loop over the dirty modules -/

abbrev HoldsLive : (Name → PackageCacheAwareLiveReason → Prop) → LiveReasons → Prop :=
  HoldsSets nameCmp PackageCacheAwareLiveReason.cmp

/-- A reason that one dirty module gives. -/
def GivesLive (lock : PackageLockManifest) (dirty module : Name)
    (reason : PackageCacheAwareLiveReason) : Prop :=
  module = dirty ∧ reason = .dirty ∨
    TransGen lock.Imports module dirty ∧ reason = .reverseDependencyOfDirty dirty

theorem selectDirtyModule_holds (exact : LockGraphExact lock indexed)
    (sized : indexed.index.moduleByEntry.length = size)
    {members : Name → PackageCacheAwareLiveReason → Prop} {state : LiveReasons × EntryEpochMarks}
    (holds : HoldsLive members state.1) (fresh : state.2.Fresh size) {dirty : Name}
    (known : dirty ∈ lock.entries.map (·.module)) :
    HoldsLive (fun module reason => GivesLive lock dirty module reason ∨ members module reason)
        (selectDirtyModule indexed state dirty).1 ∧
      (selectDirtyModule indexed state dirty).2.Fresh size := by
  obtain ⟨entry, here⟩ := exact.exists_entry known
  obtain ⟨dependents, visited', fresh', reached, worked⟩ := workOnDependents_eq exact sized fresh
    here (fun selected dependent => insertLiveReason selected dependent
      (.reverseDependencyOfDirty dirty)) (insertLiveReason state.1 dirty .dirty)
  have result : selectDirtyModule indexed state dirty =
      (dependents.foldl (fun selected dependent => insertLiveReason selected dependent
        (.reverseDependencyOfDirty dirty)) (insertLiveReason state.1 dirty .dirty), visited') := by
    rw [selectDirtyModule, (exact.entries dirty entry).mpr here]
    exact worked
  have itself := HoldsSets.extendAt nameCmp_lawful PackageCacheAwareLiveReason.cmp_lawful holds
    dirty .dirty
  have all := HoldsSets.foldl_extendAt nameCmp_lawful PackageCacheAwareLiveReason.cmp_lawful
    itself dependents (.reverseDependencyOfDirty dirty)
  rw [result]
  refine ⟨all.congr fun module reason => ?_, fresh'⟩
  rw [GivesLive, reached, or_left_comm, or_assoc]

theorem selectDirtyModules_holds (exact : LockGraphExact lock indexed)
    (sized : indexed.index.moduleByEntry.length = size) (dirtyModules : List Name)
    (known : ∀ dirty ∈ dirtyModules, dirty ∈ lock.entries.map (·.module))
    {members : Name → PackageCacheAwareLiveReason → Prop} (state : LiveReasons × EntryEpochMarks)
    (holds : HoldsLive members state.1) (fresh : state.2.Fresh size) :
    HoldsLive (fun module reason =>
        (∃ dirty ∈ dirtyModules, GivesLive lock dirty module reason) ∨ members module reason)
      (dirtyModules.foldl (selectDirtyModule indexed) state).1 := by
  induction dirtyModules generalizing members state with
  | nil => exact holds.congr (by simp)
  | cons dirty rest ih =>
    rw [List.forall_mem_cons] at known
    obtain ⟨holds', fresh'⟩ := selectDirtyModule_holds exact sized holds fresh known.1
    refine (ih known.2 _ holds' fresh').congr fun module reason => ?_
    rw [List.exists_mem_cons_iff, or_left_comm, or_assoc]

/-! ### The order of the results -/

/-- In the order of the graph no module depends on a later one. -/
theorem LockGraphExact.dependenciesFirst (exact : LockGraphExact lock indexed)
    (nodup : indexed.graph.topologicalOrder.Nodup) :
    indexed.graph.topologicalOrder.Pairwise fun earlier later =>
      ¬TransGen lock.Imports earlier later := by
  have closed : ∀ before name after, indexed.graph.topologicalOrder = before ++ name :: after →
      ∀ imported, TransGen lock.Imports name imported → imported ∈ before := by
    intro before name after split imported path
    induction path with
    | single imports => exact exact.orderFirst before name after split _ imports
    | tail _ imports ih =>
      obtain ⟨first, second, rfl⟩ := List.mem_iff_append.mp ih
      have earlier := exact.orderFirst first _ (second ++ name :: after) (by simp [split]) _ imports
      exact List.mem_append_left _ earlier
  have suffix : ∀ before after, indexed.graph.topologicalOrder = before ++ after →
      after.Pairwise fun earlier later => ¬TransGen lock.Imports earlier later := by
    intro before after
    induction after generalizing before with
    | nil => exact fun _ => .nil
    | cons name after ih =>
      intro split
      refine List.pairwise_cons.mpr ⟨fun later mem path => ?_, ih (before ++ [name]) (by simp [split])⟩
      rw [split] at nodup
      exact (List.nodup_append.mp nodup).2.2 later (closed before name after split later path)
        later (List.mem_cons_of_mem _ mem) rfl
  exact suffix [] _ rfl

end Reasons

/-! ### The selections -/

/-- The reasons that justify the selection of a module. -/
def Justified (lock : PackageLockManifest) (changed : List PackageAuditChangedModule)
    (module : Name) : PackageAuditSelectionReason → Prop
  | .explicitlyChanged => Changed changed module
  | .reverseDependencyOfExportChange dependency =>
    HasChange changed dependency .exportHashChanged ∧ TransGen lock.Imports module dependency
  | .requiredByPolicyChange =>
    module ∈ lock.entries.map (·.module) ∧ ∃ other, HasChange changed other .policyChanged
  | .requiredByCheckerIdentityChange =>
    module ∈ lock.entries.map (·.module) ∧ ∃ other, HasChange changed other .checkerIdentityChanged
  | .requiredByCoreSpecChange =>
    module ∈ lock.entries.map (·.module) ∧ ∃ other, HasChange changed other .coreSpecChanged
  | .requiredByCertificateFormatChange =>
    module ∈ lock.entries.map (·.module) ∧
      ∃ other, HasChange changed other .certificateFormatChanged

/-- The kinds that concern all modules. -/
def PackageAuditChangeKind.IsGlobal : PackageAuditChangeKind → Prop
  | .policyChanged | .checkerIdentityChanged | .coreSpecChanged | .certificateFormatChanged => True
  | _ => False

/-- The kinds that leave the exports as they were. -/
def PackageAuditChangeKind.IsStable : PackageAuditChangeKind → Prop
  | .certificateHashChanged | .axiomReportHashChanged | .certificateFileHashChanged => True
  | _ => False

def OnlyStable (changed : List PackageAuditChangedModule) (module : Name) : Prop :=
  Changed changed module ∧ ∀ kind, HasChange changed module kind → kind.IsStable

/-- What an audit selection says about the changes of a lock. -/
structure AuditSelectionExact (lock : PackageLockManifest) (indexed : IndexedPackageLockGraph)
    (changed : List PackageAuditChangedModule) (selection : PackageAuditSelection) : Prop where
  selected : ∀ module, module ∈ selection.modules.map (·.module) ↔
    Changed changed module ∨
      (∃ dependency, HasChange changed dependency .exportHashChanged ∧
        TransGen lock.Imports module dependency) ∨
      module ∈ lock.entries.map (·.module) ∧
        ∃ kind : PackageAuditChangeKind, kind.IsGlobal ∧ ∃ other, HasChange changed other kind
  reasons : ∀ chosen ∈ selection.modules, ∀ reason,
    reason ∈ chosen.reasons ↔ Justified lock changed chosen.module reason
  reasonsSorted : ∀ chosen ∈ selection.modules,
    chosen.reasons.Pairwise fun a b => PackageAuditSelectionReason.cmp a b = .lt
  skipped : ∀ module, module ∈ selection.skippedStableExportDependents ↔
    (∃ dependency, OnlyStable changed dependency ∧ TransGen lock.Imports module dependency) ∧
      module ∉ selection.modules.map (·.module)
  skippedSorted : selection.skippedStableExportDependents.Pairwise fun a b => nameCmp a b = .lt
  ordered : (selection.modules.map (·.module)).Sublist indexed.graph.topologicalOrder
  dependenciesFirst : (selection.modules.map (·.module)).Pairwise fun earlier later =>
    ¬TransGen lock.Imports earlier later
  nodup : (selection.modules.map (·.module)).Nodup
  axiomReport : selection.packageAxiomReportCheckRequired = true ↔
    ∃ module, HasChange changed module .axiomReportHashChanged
  theoremIndex : selection.packageTheoremIndexCheckRequired =
    selection.packageAxiomReportCheckRequired
  evidence : selection.proofEvidence = false

/-- What a live selection says about the dirty modules of a lock. -/
structure LiveSelectionExact (lock : PackageLockManifest) (indexed : IndexedPackageLockGraph)
    (dirtyModules : List Name) (selection : PackageCacheAwareLiveSelection) : Prop where
  selected : ∀ module, module ∈ selection.modules.map (·.module) ↔
    ∃ dirty ∈ dirtyModules, ReflTransGen lock.Imports module dirty
  dirty : ∀ chosen ∈ selection.modules, .dirty ∈ chosen.reasons ↔ chosen.module ∈ dirtyModules
  dependency : ∀ chosen ∈ selection.modules, ∀ dependency,
    .reverseDependencyOfDirty dependency ∈ chosen.reasons ↔
      dependency ∈ dirtyModules ∧ TransGen lock.Imports chosen.module dependency
  reasonsSorted : ∀ chosen ∈ selection.modules,
    chosen.reasons.Pairwise fun a b => PackageCacheAwareLiveReason.cmp a b = .lt
  ordered : (selection.modules.map (·.module)).Sublist indexed.graph.topologicalOrder
  dependenciesFirst : (selection.modules.map (·.module)).Pairwise fun earlier later =>
    ¬TransGen lock.Imports earlier later
  nodup : (selection.modules.map (·.module)).Nodup
  evidence : selection.proofEvidence = false

section Selections

variable {lock : PackageLockManifest} {indexed : IndexedPackageLockGraph}
  {changed : List PackageAuditChangedModule}

theorem justified_iff (exact : LockGraphExact lock indexed) (module : Name)
    (reason : PackageAuditSelectionReason) :
    (∃ changedModule ∈ normalizeChangedModules changed, Gives lock changedModule module reason) ∨
        Required (normalizeChangedModules changed) indexed.graph.topologicalOrder globalChanges
          module reason ↔
      Justified lock changed module reason := by
  have explicitly : (∃ changedModule ∈ normalizeChangedModules changed,
      module = changedModule.module) ↔ Changed changed module := by
    rw [← changed_normalize]
    exact exists_congr fun _ => and_congr_right fun _ => eq_comm
  have dependent : ∀ dependency, (∃ changedModule ∈ normalizeChangedModules changed,
      .exportHashChanged ∈ changedModule.changes ∧
        TransGen lock.Imports module changedModule.module ∧ changedModule.module = dependency) ↔
        HasChange changed dependency .exportHashChanged ∧
          TransGen lock.Imports module dependency := by
    intro dependency
    rw [← hasChange_normalize]
    constructor
    · rintro ⟨changedModule, mem, change, path, rfl⟩
      exact ⟨⟨changedModule, mem, rfl, change⟩, path⟩
    · rintro ⟨⟨changedModule, mem, rfl, change⟩, path⟩
      exact ⟨changedModule, mem, change, path, rfl⟩
  cases reason with
  | explicitlyChanged => simp [Gives, Required, globalChanges, Justified, explicitly]
  | reverseDependencyOfExportChange dependency =>
    simp [Gives, Required, globalChanges, Justified, ← dependent, eq_comm]
  | requiredByPolicyChange | requiredByCheckerIdentityChange | requiredByCoreSpecChange |
    requiredByCertificateFormatChange =>
    simp [Gives, Required, globalChanges, Justified, hasChange_normalize, exact.order.mem_iff]

theorem justified_exists_iff :
    (∃ reason, Justified lock changed module reason) ↔
      Changed changed module ∨
        (∃ dependency, HasChange changed dependency .exportHashChanged ∧
          TransGen lock.Imports module dependency) ∨
        module ∈ lock.entries.map (·.module) ∧
          ∃ kind : PackageAuditChangeKind, kind.IsGlobal ∧ ∃ other, HasChange changed other kind := by
  constructor
  · rintro ⟨reason, justified⟩
    cases reason with
    | explicitlyChanged => exact .inl justified
    | reverseDependencyOfExportChange dependency => exact .inr (.inl ⟨dependency, justified⟩)
    | requiredByPolicyChange => exact .inr (.inr ⟨justified.1, .policyChanged, trivial, justified.2⟩)
    | requiredByCheckerIdentityChange =>
      exact .inr (.inr ⟨justified.1, .checkerIdentityChanged, trivial, justified.2⟩)
    | requiredByCoreSpecChange =>
      exact .inr (.inr ⟨justified.1, .coreSpecChanged, trivial, justified.2⟩)
    | requiredByCertificateFormatChange =>
      exact .inr (.inr ⟨justified.1, .certificateFormatChanged, trivial, justified.2⟩)
  · rintro (changed | ⟨dependency, change⟩ | ⟨known, kind, isGlobal, change⟩)
    · exact ⟨.explicitlyChanged, changed⟩
    · exact ⟨.reverseDependencyOfExportChange dependency, change⟩
    · cases kind with
      | policyChanged => exact ⟨.requiredByPolicyChange, known, change⟩
      | checkerIdentityChanged => exact ⟨.requiredByCheckerIdentityChange, known, change⟩
      | coreSpecChanged => exact ⟨.requiredByCoreSpecChange, known, change⟩
      | certificateFormatChanged => exact ⟨.requiredByCertificateFormatChange, known, change⟩
      | certificateHashChanged | exportHashChanged | axiomReportHashChanged |
        certificateFileHashChanged => cases isGlobal

/-- Of modules that no global change selects, those with stable changes only are skipped over. -/
theorem skips_iff
    (nonempty : ∀ changedModule ∈ normalizeChangedModules changed, changedModule.changes ≠ [])
    (noGlobal : ¬∃ kind : PackageAuditChangeKind, kind.IsGlobal ∧
      ∃ other, HasChange changed other kind) :
    (∃ changedModule ∈ normalizeChangedModules changed, Skips lock changedModule module) ↔
      ∃ dependency, OnlyStable changed dependency ∧ TransGen lock.Imports module dependency := by
  constructor
  · rintro ⟨changedModule, mem, unexported, -, path⟩
    refine ⟨changedModule.module, ⟨?_, fun kind change => ?_⟩, path⟩
    · exact (changed_normalize changed _).mp ⟨changedModule, mem, rfl⟩
    · cases kind with
      | exportHashChanged => exact unexported ((mem_changes_normalize mem _).mpr change)
      | certificateHashChanged | axiomReportHashChanged | certificateFileHashChanged => trivial
      | policyChanged => exact noGlobal ⟨.policyChanged, trivial, _, change⟩
      | checkerIdentityChanged => exact noGlobal ⟨.checkerIdentityChanged, trivial, _, change⟩
      | coreSpecChanged => exact noGlobal ⟨.coreSpecChanged, trivial, _, change⟩
      | certificateFormatChanged => exact noGlobal ⟨.certificateFormatChanged, trivial, _, change⟩
  · rintro ⟨_, ⟨isChanged, stable⟩, path⟩
    obtain ⟨changedModule, mem, rfl⟩ := (changed_normalize changed _).mpr isChanged
    have all : ∀ kind ∈ changedModule.changes, kind.IsStable := fun kind change =>
      stable kind ((mem_changes_normalize mem kind).mp change)
    obtain ⟨kind, change⟩ := List.exists_mem_of_ne_nil _ (nonempty changedModule mem)
    refine ⟨changedModule, mem, fun exported => all _ exported, ?_, path⟩
    cases kind with
    | certificateHashChanged => exact .inl change
    | certificateFileHashChanged => exact .inr (.inl change)
    | axiomReportHashChanged => exact .inr (.inr change)
    | exportHashChanged | policyChanged | checkerIdentityChanged | coreSpecChanged |
      certificateFormatChanged => exact (all _ change).elim

/-- What the builder of an indexed graph grants to the selections. -/
structure Selectable (lock : PackageLockManifest) (indexed : IndexedPackageLockGraph) : Prop where
  exact : LockGraphExact lock indexed
  modules : indexed.index.moduleByEntry = indexed.lock.entries.map (·.module)
  distinct : indexed.graph.topologicalOrder.Nodup

theorem selectable_of_built (built : buildIndexedPackageLockGraph lock = .ok indexed) :
    Selectable lock indexed := by
  have exact := lockGraphExact_of_ok built
  obtain ⟨resolved, nodes, valid, -, -, -, same⟩ := buildIndexedPackageLockGraph_eq_ok built
  refine ⟨exact, by rw [same]; rfl, exact.order.nodup_iff.mpr valid.modules⟩

theorem Selectable.known_iff (selectable : Selectable lock indexed) :
    module ∈ indexed.lock.entries.map (·.module) ↔ module ∈ lock.entries.map (·.module) := by
  rw [← selectable.modules, selectable.exact.modules.mem_iff]

theorem Selectable.sized (selectable : Selectable lock indexed) :
    indexed.index.moduleByEntry.length = indexed.lock.entries.length := by
  rw [selectable.modules, List.length_map]

theorem validate_iff (selectable : Selectable lock indexed) :
    validateChangedModules (indexed.lock.entries.map (·.module)) (normalizeChangedModules changed) =
        .ok () ↔
      ∀ module, Changed changed module → module ∈ lock.entries.map (·.module) ∧
        ∃ kind, HasChange changed module kind := by
  rw [validateChangedModules_eq_ok]
  constructor
  · intro each module isChanged
    obtain ⟨changedModule, mem, rfl⟩ := (changed_normalize changed _).mpr isChanged
    obtain ⟨known, nonempty⟩ := each changedModule mem
    obtain ⟨kind, change⟩ := List.exists_mem_of_ne_nil _ nonempty
    exact ⟨selectable.known_iff.mp known, kind, (mem_changes_normalize mem kind).mp change⟩
  · intro each changedModule mem
    obtain ⟨known, kind, change⟩ := each changedModule.module
      ((changed_normalize changed _).mp ⟨changedModule, mem, rfl⟩)
    exact ⟨selectable.known_iff.mpr known,
      List.ne_nil_of_mem ((mem_changes_normalize mem kind).mpr change)⟩

theorem audit_isOk_iff (selectable : Selectable lock indexed) :
    (∃ selection, selectPackageAuditModulesIndexed indexed changed = .ok selection) ↔
      ∀ module, Changed changed module → module ∈ lock.entries.map (·.module) ∧
        ∃ kind, HasChange changed module kind := by
  rw [← validate_iff selectable]
  simp only [selectPackageAuditModulesIndexed, Result.bind_eq_ok]
  constructor
  · rintro ⟨_, _, valid, -⟩
    exact valid
  · exact fun valid => ⟨_, (), valid, rfl⟩

theorem auditSelectionExact_of_ok (selectable : Selectable lock indexed)
    {selection : PackageAuditSelection}
    (h : selectPackageAuditModulesIndexed indexed changed = .ok selection) :
    AuditSelectionExact lock indexed changed selection := by
  have accepted := (audit_isOk_iff selectable).mp ⟨selection, h⟩
  simp only [selectPackageAuditModulesIndexed, Result.bind_eq_ok, Except.ok.injEq] at h
  obtain ⟨_, valid, rfl⟩ := h
  have checked := validateChangedModules_eq_ok.mp valid
  have exact := selectable.exact
  have start : HoldsState indexed.lock.entries.length
      (Required (normalizeChangedModules changed) indexed.graph.topologicalOrder globalChanges)
      (fun _ => False) False
      { selected := selectGlobal indexed.graph.topologicalOrder (normalizeChangedModules changed) []
        skipped := []
        axiomArtifactChecksRequired := false
        reverseMarks := .new indexed.lock.entries.length } :=
    { selected := selectGlobal_holds _ _
      skippedSorted := .nil
      skipped := fun _ => by simp
      axiomChecks := by simp
      marks := EntryEpochMarks.new_fresh _ }
  have final := selectChangedModules_holds exact selectable.sized (normalizeChangedModules changed)
    (fun changedModule mem => selectable.known_iff.mp (checked changedModule mem).1) start
  generalize (normalizeChangedModules changed).foldl (selectChangedModule indexed) _ = state at final
  have justified : HoldsReasons (Justified lock changed) state.selected :=
    final.selected.congr (justified_iff exact)
  have inOrder : ∀ {module}, (∃ reason, Justified lock changed module reason) →
      module ∈ indexed.graph.topologicalOrder := by
    intro module some
    refine exact.order.mem_iff.mpr ?_
    rcases justified_exists_iff.mp some with isChanged | ⟨dependency, -, path⟩ | ⟨known, -⟩
    · exact (accepted module isChanged).1
    · obtain ⟨_, step, _⟩ := TransGen.head'_iff.mp path
      exact (exact.imported_known step).1
    · exact known
  obtain ⟨keys, sets⟩ := justified.takeEach nameCmp_lawful selectable.distinct
  have sublist := takeEach_sublist nameCmp indexed.graph.topologicalOrder state.selected
  have names : ((takeEach nameCmp indexed.graph.topologicalOrder state.selected).map fun entry =>
      (⟨entry.1, entry.2⟩ : PackageAuditSelectedModule)).map (·.module) =
        (takeEach nameCmp indexed.graph.topologicalOrder state.selected).map Prod.fst :=
    List.map_map
  have selected : ∀ module, module ∈
      (takeEach nameCmp indexed.graph.topologicalOrder state.selected).map Prod.fst ↔
        ∃ reason, Justified lock changed module reason := by
    intro module
    rw [keys, and_iff_right_of_imp inOrder]
  constructor
  case selected =>
    intro module
    rw [names, selected, justified_exists_iff]
  case reasons =>
    intro chosen mem reason
    obtain ⟨entry, taken, rfl⟩ := List.mem_map.mp mem
    exact (sets entry taken).2 reason
  case reasonsSorted =>
    intro chosen mem
    obtain ⟨entry, taken, rfl⟩ := List.mem_map.mp mem
    exact (sets entry taken).1
  case skipped =>
    intro module
    rw [names, selected, List.mem_filter, final.skipped, or_iff_left id, Option.isNone_iff_eq_none,
      get?_eq_none nameCmp_lawful, justified.mem_keys]
    refine and_congr_left fun unselected => ?_
    -- A dependent would be selected when a change concerned all modules.
    by_cases noGlobal : ¬∃ kind : PackageAuditChangeKind, kind.IsGlobal ∧
        ∃ other, HasChange changed other kind
    · exact skips_iff (fun changedModule mem => (checked changedModule mem).2) noGlobal
    · have none : ∀ dependency, ¬TransGen lock.Imports module dependency := by
        intro dependency path
        obtain ⟨_, step, _⟩ := TransGen.head'_iff.mp path
        exact unselected (justified_exists_iff.mpr
          (.inr (.inr ⟨(exact.imported_known step).1, not_not.mp noGlobal⟩)))
      constructor
      · rintro ⟨changedModule, -, -, -, path⟩
        exact absurd path (none _)
      · rintro ⟨dependency, -, path⟩
        exact absurd path (none _)
  case skippedSorted => exact final.skippedSorted.filter _
  case ordered => exact names ▸ sublist
  case dependenciesFirst =>
    exact names ▸ (exact.dependenciesFirst selectable.distinct).sublist sublist
  case nodup => exact names ▸ selectable.distinct.sublist sublist
  case axiomReport =>
    rw [final.axiomChecks, or_iff_left id]
    constructor
    · rintro ⟨changedModule, mem, change⟩
      exact ⟨changedModule.module, (hasChange_normalize changed _ _).mp
        ⟨changedModule, mem, rfl, change⟩⟩
    · rintro ⟨module, change⟩
      obtain ⟨changedModule, mem, -, change⟩ := (hasChange_normalize changed module _).mpr change
      exact ⟨changedModule, mem, change⟩
  case theoremIndex => rfl
  case evidence => rfl

/-! ### The live selection -/

theorem mem_dirtyModules {dirtyModules : List Name} :
    module ∈ ofList nameCmp dirtyModules ↔ module ∈ dirtyModules :=
  mem_ofList nameCmp_lawful

theorem ofList_congr {dirtyModules other : List Name}
    (same : ∀ module, module ∈ dirtyModules ↔ module ∈ other) :
    ofList nameCmp other = ofList nameCmp dirtyModules :=
  Sorted.eq_of_mem_iff (ofList_pairwise nameCmp_lawful other)
    (ofList_pairwise nameCmp_lawful dirtyModules)
    fun module => by rw [mem_dirtyModules, mem_dirtyModules, same]

theorem knownDirty_iff (selectable : Selectable lock indexed) (dirtyModules : List Name) :
    Result.forEach dirtyModules.zipIdx (fun (module, position) =>
        Result.ensure (indexed.index.entryByModule module).isSome
          (PackageArtifactError.summaryMismatch s!"dirty_modules[{position}]" "module"
            "package lock module" (asDotted module))) = .ok () ↔
      ∀ module ∈ dirtyModules, module ∈ lock.entries.map (·.module) := by
  have known : ∀ module, (indexed.index.entryByModule module).isSome = true ↔
      module ∈ lock.entries.map (·.module) := by
    intro module
    rw [Option.isSome_iff_exists, ← selectable.exact.modules.mem_iff, List.mem_iff_getElem?]
    exact exists_congr fun entry => selectable.exact.entries module entry
  rw [Result.forEach_eq_ok]
  constructor
  · intro each module mem
    obtain ⟨position, here⟩ := List.mem_iff_getElem?.mp mem
    have checked := each (module, position) (List.mk_mem_zipIdx_iff_getElem?.mpr here)
    exact (known module).mp (Result.ensure_eq_ok.mp checked)
  · rintro each ⟨module, position⟩ mem
    have here := List.mem_of_getElem? (List.mk_mem_zipIdx_iff_getElem?.mp mem)
    exact Result.ensure_eq_ok.mpr ((known module).mpr (each module here))

theorem live_isOk_iff (selectable : Selectable lock indexed) {dirtyModules : List Name} :
    (∃ selection, selectPackageCacheAwareLiveModulesIndexed indexed dirtyModules = .ok selection) ↔
      ∀ module ∈ dirtyModules, module ∈ lock.entries.map (·.module) := by
  have known := knownDirty_iff selectable (ofList nameCmp dirtyModules)
  simp only [mem_dirtyModules] at known
  rw [← known]
  simp only [selectPackageCacheAwareLiveModulesIndexed, Result.bind_eq_ok]
  constructor
  · rintro ⟨_, _, valid, -⟩
    exact valid
  · exact fun valid => ⟨_, (), valid, rfl⟩

/-- The order of the entries is that of the modules. -/
theorem Selectable.order (selectable : Selectable lock indexed) :
    indexed.index.topologicalEntries.map (nameAt indexed.index.moduleByEntry) =
      indexed.graph.topologicalOrder := by
  have same := congrArg (List.map fun name => Option.getD name (⟨[]⟩ : Name))
    selectable.exact.topologicalEntries
  rw [List.map_map, List.map_map] at same
  exact same.trans (List.map_id' _)

theorem liveSelectionExact_of_ok (selectable : Selectable lock indexed) {dirtyModules : List Name}
    {selection : PackageCacheAwareLiveSelection}
    (h : selectPackageCacheAwareLiveModulesIndexed indexed dirtyModules = .ok selection) :
    LiveSelectionExact lock indexed dirtyModules selection := by
  have accepted := (live_isOk_iff selectable).mp ⟨selection, h⟩
  have exact := selectable.exact
  simp only [selectPackageCacheAwareLiveModulesIndexed, Result.bind_eq_ok, Except.ok.injEq,
    selectable.order] at h
  obtain ⟨_, -, rfl⟩ := h
  have all := selectDirtyModules_holds exact selectable.sized (ofList nameCmp dirtyModules)
    (fun dirty mem => accepted dirty (mem_dirtyModules.mp mem))
    ([], .new indexed.lock.entries.length) HoldsSets.empty (EntryEpochMarks.new_fresh _)
  generalize ((ofList nameCmp dirtyModules).foldl (selectDirtyModule indexed) _).1 = selected at all
  have holds : HoldsLive (fun module reason => ∃ dirty ∈ dirtyModules,
      GivesLive lock dirty module reason) selected := by
    refine all.congr fun module reason => ?_
    rw [or_iff_left id]
    simp only [mem_dirtyModules]
  have reached : ∀ module, (∃ reason, ∃ dirty ∈ dirtyModules,
      GivesLive lock dirty module reason) ↔
        ∃ dirty ∈ dirtyModules, ReflTransGen lock.Imports module dirty := by
    intro module
    constructor
    · rintro ⟨reason, dirty, mem, ⟨rfl, -⟩ | ⟨path, -⟩⟩
      · exact ⟨_, mem, .refl⟩
      · exact ⟨dirty, mem, path.to_reflTransGen⟩
    · rintro ⟨dirty, mem, path⟩
      -- a module is reached by itself or through its imports, and each is a reason
      rcases Relation.reflTransGen_iff_eq_or_transGen.mp path with rfl | path
      · exact ⟨.dirty, _, mem, .inl ⟨rfl, rfl⟩⟩
      · exact ⟨.reverseDependencyOfDirty dirty, dirty, mem, .inr ⟨path, rfl⟩⟩
  obtain ⟨keys, sets⟩ := holds.takeEach nameCmp_lawful selectable.distinct
  have sublist := takeEach_sublist nameCmp indexed.graph.topologicalOrder selected
  have names : ((takeEach nameCmp indexed.graph.topologicalOrder selected).map fun entry =>
      (⟨entry.1, entry.2⟩ : PackageCacheAwareLiveModule)).map (·.module) =
        (takeEach nameCmp indexed.graph.topologicalOrder selected).map Prod.fst :=
    List.map_map
  constructor
  case selected =>
    intro module
    rw [names, keys, reached, and_iff_right_iff_imp]
    rintro ⟨dirty, mem, path⟩
    rw [exact.order.mem_iff]
    rcases path.cases_head with rfl | ⟨_, step, _⟩
    · exact accepted _ mem
    · exact (exact.imported_known step).1
  case dirty =>
    intro chosen mem
    obtain ⟨entry, taken, rfl⟩ := List.mem_map.mp mem
    refine ((sets entry taken).2 .dirty).trans ?_
    simp [GivesLive]
  case dependency =>
    intro chosen mem dependency
    obtain ⟨entry, taken, rfl⟩ := List.mem_map.mp mem
    refine ((sets entry taken).2 (.reverseDependencyOfDirty dependency)).trans ?_
    simp [GivesLive]
  case reasonsSorted =>
    intro chosen mem
    obtain ⟨entry, taken, rfl⟩ := List.mem_map.mp mem
    exact (sets entry taken).1
  case ordered => exact names ▸ sublist
  case dependenciesFirst =>
    exact names ▸ (exact.dependenciesFirst selectable.distinct).sublist sublist
  case nodup => exact names ▸ selectable.distinct.sublist sublist
  case evidence => rfl

end Selections

/-! ### Both selections -/

/-- When the selections succeed, what they select, and what they depend on. -/
structure AuditSelectionsExact (lock : PackageLockManifest) (indexed : IndexedPackageLockGraph) :
    Prop where
  auditIsOk : ∀ changed,
    (∃ selection, selectPackageAuditModulesIndexed indexed changed = .ok selection) ↔
      ∀ module, Changed changed module → module ∈ lock.entries.map (·.module) ∧
        ∃ kind, HasChange changed module kind
  audit : ∀ changed selection, selectPackageAuditModulesIndexed indexed changed = .ok selection →
    AuditSelectionExact lock indexed changed selection
  auditSame : ∀ changed other, SameChanges changed other →
    selectPackageAuditModulesIndexed indexed other =
      selectPackageAuditModulesIndexed indexed changed
  liveIsOk : ∀ dirtyModules,
    (∃ selection,
        selectPackageCacheAwareLiveModulesIndexed indexed dirtyModules = .ok selection) ↔
      ∀ module ∈ dirtyModules, module ∈ lock.entries.map (·.module)
  live : ∀ dirtyModules selection,
    selectPackageCacheAwareLiveModulesIndexed indexed dirtyModules = .ok selection →
      LiveSelectionExact lock indexed dirtyModules selection
  liveSame : ∀ dirtyModules other : List Name,
    (∀ module, module ∈ dirtyModules ↔ module ∈ other) →
      selectPackageCacheAwareLiveModulesIndexed indexed other =
        selectPackageCacheAwareLiveModulesIndexed indexed dirtyModules

theorem auditSelections_exact {lock : PackageLockManifest} {indexed : IndexedPackageLockGraph}
    (built : buildIndexedPackageLockGraph lock = .ok indexed) :
    AuditSelectionsExact lock indexed := by
  have selectable := selectable_of_built built
  constructor
  case auditIsOk => exact fun _ => audit_isOk_iff selectable
  case audit => exact fun _ _ h => auditSelectionExact_of_ok selectable h
  case auditSame =>
    intro changed other same
    rw [selectPackageAuditModulesIndexed, selectPackageAuditModulesIndexed,
      normalizeChangedModules_congr same]
  case liveIsOk => exact fun _ => live_isOk_iff selectable
  case live => exact fun _ _ h => liveSelectionExact_of_ok selectable h
  case liveSame =>
    intro dirtyModules other same
    rw [selectPackageCacheAwareLiveModulesIndexed, selectPackageCacheAwareLiveModulesIndexed,
      ofList_congr same]

theorem auditSelections_exact_app :
    ∃ indexed, buildIndexedPackageLockGraph appLock = .ok indexed ∧
      AuditSelectionsExact appLock indexed := by
  have succeeds : (buildIndexedPackageLockGraph appLock).toOption.isSome = true := by
    decide +kernel
  obtain ⟨indexed, here⟩ := Option.isSome_iff_exists.mp succeeds
  have built := Result.ok_of_toOption here
  exact ⟨indexed, built, auditSelections_exact built⟩

/-- The skipped modules come in the order of their names: `App` stands before `Base`, which it
    imports. -/
theorem skipped_not_dependenciesFirst :
    ¬∀ lock indexed changed selection, buildIndexedPackageLockGraph lock = .ok indexed →
      selectPackageAuditModulesIndexed indexed changed = .ok selection →
        selection.skippedStableExportDependents.Pairwise fun earlier later =>
          ¬TransGen lock.Imports earlier later := by
  intro ordered
  have runs : ((buildIndexedPackageLockGraph appLock).toOption.bind fun indexed =>
      (selectPackageAuditModulesIndexed indexed
        [⟨⟨["Core"]⟩, [.certificateHashChanged]⟩]).toOption.map
          (·.skippedStableExportDependents)) = some [⟨["App"]⟩, ⟨["Base"]⟩] := by
    decide +kernel
  obtain ⟨indexed, here, runs⟩ := Option.bind_eq_some_iff.mp runs
  obtain ⟨selection, chosen, skipped⟩ := Option.map_eq_some_iff.mp runs
  have inOrder := ordered appLock indexed _ selection (Result.ok_of_toOption here)
    (Result.ok_of_toOption chosen)
  rw [skipped] at inOrder
  refine List.rel_of_pairwise_cons inOrder List.mem_cons_self (.single ?_)
  exact ⟨appEntry, by simp [appLock], rfl, _, List.mem_singleton_self _, rfl⟩

end NpaCore.Package
