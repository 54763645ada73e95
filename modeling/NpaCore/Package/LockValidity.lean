import Mathlib.Data.List.Perm.Basic
import NpaCore.Lib.Sorted
import NpaCore.Package.Accountability

/-!
# Valid package locks

What the validation of a lock by itself demands, as a property of the lock, and locks that
differ only in the order of their entries and imports.

## Main results

* `validatePackageLockManifest_eq_ok`: a lock is accepted exactly when it is valid.
* `normalizedPackageLock_reordered`: locks that differ only in order have one normal form.
-/

namespace NpaCore.Package

open NpaCore.Wire (Name)

/-! ### Validity -/

def ValidOrigin (entry : PackageLockEntry) : Prop :=
  match entry.origin with
  | .local => entry.package = none ∧ entry.version = none
  | .external => ∃ package version, entry.package = some package ∧ entry.version = some version ∧
      isValidPackageId package.value = true ∧ isValidPackageVersion version.value = true

structure ValidLockImports (imports : List PackageLockImport) : Prop where
  canonical : ∀ lockImport ∈ imports, lockImport.module.isCanonical = true
  distinct : (imports.map (·.module)).Nodup

structure ValidLockEntry (entry : PackageLockEntry) : Prop where
  canonical : entry.module.isCanonical = true
  certificate : isValidPackagePath entry.certificate.value.toList = true
  origin : ValidOrigin entry
  imports : ValidLockImports entry.imports

structure ValidLock (lock : PackageLockManifest) : Prop where
  schema : lock.schema = packageLockSchema
  package : isValidPackageId lock.package.value = true
  version : isValidPackageVersion lock.version.value = true
  path : isValidPackagePath lock.manifest.path.value.toList = true
  entries : ∀ entry ∈ lock.entries, ValidLockEntry entry
  modules : (lock.entries.map (·.module)).Nodup
  certificates : (lock.entries.map (·.certificate.value)).Nodup

/-! ### Validation accepts the valid locks -/

theorem mapError_eq_ok {ε ε' α : Type} {result : Except ε α} {f : ε → ε'} {a : α} :
    result.mapError f = .ok a ↔ result = .ok a := by
  cases result <;> simp [Except.mapError]

theorem map_zipIdx {α β : Type} (items : List α) (f : α → β) :
    items.zipIdx.map (fun indexed => f indexed.1) = items.map f := by
  have values := congrArg (List.map f) (List.zipIdx_map_fst 0 items)
  rwa [List.map_map] at values

theorem validateLockPackageId_eq_ok {id : PackageId} {path : String} {u : Unit} :
    validateLockPackageId id path = .ok u ↔ isValidPackageId id.value = true := by
  rw [validateLockPackageId, mapError_eq_ok, validatePackageId, Result.ensure_eq_ok]

theorem validateLockPackageVersion_eq_ok {version : PackageVersion} {path : String} {u : Unit} :
    validateLockPackageVersion version path = .ok u ↔
      isValidPackageVersion version.value = true := by
  rw [validateLockPackageVersion, mapError_eq_ok, validatePackageVersion, Result.ensure_eq_ok]

theorem validateLockPath_eq_ok {path : PackagePath} {errorPath : String} {u : Unit} :
    validateLockPath path errorPath = .ok u ↔ isValidPackagePath path.value.toList = true := by
  rw [validateLockPath, mapError_eq_ok, validatePackagePath, Result.ensure_eq_ok]

theorem validateLockImports_fold (entryPath : String) (imports : List (PackageLockImport × Nat))
    (modules : List Name) :
    (∃ last, Result.foldEach imports modules (fun modules (entry, importIndex) => do
        let importPath := s!"{entryPath}.imports[{importIndex}]"
        validateLockModuleName entry.module s!"{importPath}.module"
        Result.ensure (decide (entry.module ∉ modules))
          (.duplicateImport s!"{importPath}.module" (asDotted entry.module))
        .ok (entry.module :: modules)) = .ok last) ↔
      (∀ indexed ∈ imports, indexed.1.module.isCanonical = true) ∧
        (imports.map (·.1.module)).Nodup ∧ ∀ indexed ∈ imports, indexed.1.module ∉ modules := by
  induction imports generalizing modules with
  | nil => simp [Result.foldEach]
  | cons first imports ih =>
    obtain ⟨entry, importIndex⟩ := first
    simp only [Result.foldEach, Result.bind_eq_ok, validateLockModuleName, Result.ensure_eq_ok,
      decide_eq_true_eq, Except.ok.injEq, List.forall_mem_cons, List.map_cons, List.nodup_cons]
    constructor
    · rintro ⟨last, next, ⟨_, canonical, _, fresh, rfl⟩, rest⟩
      obtain ⟨canonicals, distinct, unseen⟩ := (ih _).mp ⟨last, rest⟩
      refine ⟨⟨canonical, canonicals⟩, ⟨fun twice => ?_, distinct⟩, fresh, fun indexed mem old => ?_⟩
      · obtain ⟨other, mem, same⟩ := List.mem_map.mp twice
        exact unseen other mem (same ▸ List.mem_cons_self)
      · exact unseen indexed mem (List.mem_cons_of_mem _ old)
    · rintro ⟨⟨canonical, canonicals⟩, ⟨notTwice, distinct⟩, fresh, unseen⟩
      have unseen' : ∀ indexed ∈ imports, indexed.1.module ∉ entry.module :: modules := by
        intro indexed mem old
        rcases List.mem_cons.mp old with same | old
        · exact notTwice (List.mem_map.mpr ⟨indexed, mem, same⟩)
        · exact unseen indexed mem old
      obtain ⟨last, rest⟩ := (ih _).mpr ⟨canonicals, distinct, unseen'⟩
      exact ⟨last, _, ⟨(), canonical, (), fresh, rfl⟩, rest⟩

theorem validateLockImports_eq_ok {imports : List PackageLockImport} {entryPath : String}
    {u : Unit} : validateLockImports imports entryPath = .ok u ↔ ValidLockImports imports := by
  have names : imports.zipIdx.map (·.1.module) = imports.map (·.module) := map_zipIdx _ _
  have fold := validateLockImports_fold entryPath imports.zipIdx []
  rw [names] at fold
  rw [validateLockImports, Result.bind_eq_ok]
  constructor
  · rintro ⟨last, folded, -⟩
    obtain ⟨canonical, distinct, -⟩ := fold.mp ⟨last, folded⟩
    refine ⟨fun lockImport mem => ?_, distinct⟩
    obtain ⟨index, here⟩ := List.mem_iff_getElem?.mp mem
    exact canonical (lockImport, index) (List.mk_mem_zipIdx_iff_getElem?.mpr here)
  · rintro ⟨canonical, distinct⟩
    obtain ⟨last, folded⟩ := fold.mpr ⟨fun indexed mem => canonical indexed.1
      (List.mem_of_getElem? (List.mk_mem_zipIdx_iff_getElem?.mp mem)), distinct, by simp⟩
    exact ⟨last, folded, rfl⟩

theorem validateLockEntryOrigin_eq_ok {entryPath : String} {entry : PackageLockEntry} {u : Unit} :
    validateLockEntryOrigin entryPath entry = .ok u ↔ ValidOrigin entry := by
  unfold validateLockEntryOrigin ValidOrigin
  cases entry.origin with
  | «local» =>
    cases entry.package with
    | none =>
      cases entry.version with
      | none => simp [ifSome, Result.bind_eq_ok]
      | some version => simp [ifSome, Result.bind_eq_ok]
    | some package => simp [ifSome, Result.bind_eq_ok]
  | external =>
    simp only [Result.bind_eq_ok, Result.okOr_eq_ok, validateLockPackageId_eq_ok,
      validateLockPackageVersion_eq_ok]
    constructor
    · rintro ⟨package, hpackage, version, hversion, _, id, number⟩
      exact ⟨package, version, hpackage, hversion, id, number⟩
    · rintro ⟨package, version, hpackage, hversion, id, number⟩
      exact ⟨package, hpackage, version, hversion, (), id, number⟩

theorem validateLockEntry_eq_ok {seen next : SeenEntries} {entry : PackageLockEntry}
    {entryIndex : Nat} :
    validateLockEntry seen (entry, entryIndex) = .ok next ↔
      ValidLockEntry entry ∧ entry.module ∉ seen.modules ∧
        entry.certificate.value ∉ seen.certificatePaths ∧
        next = { modules := entry.module :: seen.modules
                 certificatePaths := entry.certificate.value :: seen.certificatePaths } := by
  simp only [validateLockEntry, Result.bind_eq_ok, validateLockModuleName, Result.ensure_eq_ok,
    validateLockPath_eq_ok, decide_eq_true_eq, validateLockEntryOrigin_eq_ok,
    validateLockImports_eq_ok, Except.ok.injEq]
  constructor
  · rintro ⟨_, canonical, _, path, _, fresh, _, unused, _, origin, _, imports, rfl⟩
    exact ⟨⟨canonical, path, origin, imports⟩, fresh, unused, rfl⟩
  · rintro ⟨⟨canonical, path, origin, imports⟩, fresh, unused, rfl⟩
    exact ⟨(), canonical, (), path, (), fresh, (), unused, (), origin, (), imports, rfl⟩

theorem validateLockEntries_isOk (entries : List (PackageLockEntry × Nat)) (seen : SeenEntries) :
    (∃ last, Result.foldEach entries seen validateLockEntry = .ok last) ↔
      (∀ indexed ∈ entries, ValidLockEntry indexed.1) ∧
        ((entries.map (·.1.module)).Nodup ∧
          ∀ indexed ∈ entries, indexed.1.module ∉ seen.modules) ∧
        (entries.map (·.1.certificate.value)).Nodup ∧
          ∀ indexed ∈ entries, indexed.1.certificate.value ∉ seen.certificatePaths := by
  induction entries generalizing seen with
  | nil => simp [Result.foldEach]
  | cons first entries ih =>
    obtain ⟨entry, entryIndex⟩ := first
    simp only [Result.foldEach, Result.bind_eq_ok, validateLockEntry_eq_ok, List.forall_mem_cons,
      List.map_cons, List.nodup_cons]
    constructor
    · rintro ⟨last, next, ⟨valid, fresh, unused, rfl⟩, rest⟩
      obtain ⟨valids, ⟨modules, unseen⟩, paths, unseen'⟩ := (ih _).mp ⟨last, rest⟩
      refine ⟨⟨valid, valids⟩, ⟨⟨fun twice => ?_, modules⟩, fresh, fun indexed mem old => ?_⟩,
        ⟨fun twice => ?_, paths⟩, unused, fun indexed mem old => ?_⟩
      · obtain ⟨other, mem, same⟩ := List.mem_map.mp twice
        exact unseen other mem (same ▸ List.mem_cons_self)
      · exact unseen indexed mem (List.mem_cons_of_mem _ old)
      · obtain ⟨other, mem, same⟩ := List.mem_map.mp twice
        exact unseen' other mem (same ▸ List.mem_cons_self)
      · exact unseen' indexed mem (List.mem_cons_of_mem _ old)
    · rintro ⟨⟨valid, valids⟩, ⟨⟨notTwice, modules⟩, fresh, unseen⟩, ⟨notTwice', paths⟩, unused,
        unseen'⟩
      have newModules : ∀ indexed ∈ entries, indexed.1.module ∉ entry.module :: seen.modules := by
        intro indexed mem old
        rcases List.mem_cons.mp old with same | old
        · exact notTwice (List.mem_map.mpr ⟨indexed, mem, same⟩)
        · exact unseen indexed mem old
      have newPaths : ∀ indexed ∈ entries,
          indexed.1.certificate.value ∉ entry.certificate.value :: seen.certificatePaths := by
        intro indexed mem old
        rcases List.mem_cons.mp old with same | old
        · exact notTwice' (List.mem_map.mpr ⟨indexed, mem, same⟩)
        · exact unseen' indexed mem old
      obtain ⟨last, rest⟩ := (ih ⟨_, _⟩).mpr ⟨valids, ⟨modules, newModules⟩, paths, newPaths⟩
      exact ⟨last, _, ⟨valid, fresh, unused, rfl⟩, rest⟩

theorem validatePackageLockManifest_eq_ok {lock : PackageLockManifest} {u : Unit} :
    validatePackageLockManifest lock = .ok u ↔ ValidLock lock := by
  have entries := validateLockEntries_isOk lock.entries.zipIdx ⟨[], []⟩
  have modules : lock.entries.zipIdx.map (·.1.module) = lock.entries.map (·.module) :=
    map_zipIdx _ _
  have paths : lock.entries.zipIdx.map (·.1.certificate.value) =
      lock.entries.map (·.certificate.value) :=
    map_zipIdx _ fun entry : PackageLockEntry => entry.certificate.value
  rw [modules, paths] at entries
  simp only [validatePackageLockManifest, Result.bind_eq_ok, Result.ensure_eq_ok,
    decide_eq_true_eq, validateLockPackageId_eq_ok, validateLockPackageVersion_eq_ok,
    validateLockPath_eq_ok]
  constructor
  · rintro ⟨_, schema, _, package, _, version, _, path, last, folded, -⟩
    obtain ⟨valids, ⟨distinct, -⟩, unused, -⟩ := entries.mp ⟨last, folded⟩
    refine ⟨schema, package, version, path, fun entry mem => ?_, distinct, unused⟩
    obtain ⟨index, here⟩ := List.mem_iff_getElem?.mp mem
    exact valids (entry, index) (List.mk_mem_zipIdx_iff_getElem?.mpr here)
  · rintro ⟨schema, package, version, path, valids, distinct, unused⟩
    obtain ⟨last, folded⟩ := entries.mpr ⟨fun indexed mem => valids indexed.1
      (List.mem_of_getElem? (List.mk_mem_zipIdx_iff_getElem?.mp mem)), ⟨distinct, by simp⟩, unused,
        by simp⟩
    exact ⟨(), schema, (), package, (), version, (), path, last, folded, trivial⟩

/-! ### Reordered locks -/

/-- The imports may stand in another order. -/
structure ReorderedEntry (entry other : PackageLockEntry) : Prop where
  same : other = { entry with imports := other.imports }
  imports : entry.imports.Perm other.imports

/-- The entries, and the imports of each entry, may stand in another order. -/
structure Reordered (lock other : PackageLockManifest) : Prop where
  same : other = { lock with entries := other.entries }
  entries : ∃ entries, lock.entries.Perm entries ∧
    List.Forall₂ ReorderedEntry entries other.entries

theorem ValidLockEntry.reordered {entry other : PackageLockEntry} (valid : ValidLockEntry entry)
    (h : ReorderedEntry entry other) : ValidLockEntry other := by
  obtain ⟨same, perm⟩ := h
  rw [same]
  refine ⟨valid.canonical, valid.certificate, valid.origin, ?_, ?_⟩
  · exact fun lockImport mem => valid.imports.canonical lockImport (perm.mem_iff.mpr mem)
  · exact (perm.map _).nodup_iff.mp valid.imports.distinct

variable {lock other : PackageLockManifest}

/-- What an entry keeps in a reordered lock. -/
theorem Reordered.map_perm {α : Type} (h : Reordered lock other)
    {f : PackageLockEntry → α} (keeps : ∀ entry other, ReorderedEntry entry other → f entry = f other) :
    (lock.entries.map f).Perm (other.entries.map f) := by
  obtain ⟨entries, perm, pointwise⟩ := h.entries
  have same : entries.map f = other.entries.map f := by
    clear perm
    generalize other.entries = others at pointwise
    induction pointwise with
    | nil => rfl
    | cons first _ ih => rw [List.map_cons, List.map_cons, keeps _ _ first, ih]
  exact same ▸ perm.map f

theorem ReorderedEntry.module {entry other : PackageLockEntry} (h : ReorderedEntry entry other) :
    entry.module = other.module := by rw [h.same]

theorem ReorderedEntry.certificate {entry other : PackageLockEntry}
    (h : ReorderedEntry entry other) : entry.certificate = other.certificate := by rw [h.same]

theorem Reordered.mem_right (h : Reordered lock other)
    {entry : PackageLockEntry} (mem : entry ∈ other.entries) :
    ∃ original ∈ lock.entries, ReorderedEntry original entry := by
  obtain ⟨entries, perm, pointwise⟩ := h.entries
  have found : ∃ original ∈ entries, ReorderedEntry original entry := by
    clear perm
    generalize other.entries = others at pointwise mem
    induction pointwise with
    | nil => cases mem
    | cons first _ ih =>
      rcases List.mem_cons.mp mem with rfl | mem
      · exact ⟨_, List.mem_cons_self, first⟩
      · obtain ⟨original, here, reordered⟩ := ih mem
        exact ⟨original, List.mem_cons_of_mem _ here, reordered⟩
  obtain ⟨original, here, reordered⟩ := found
  exact ⟨original, perm.mem_iff.mpr here, reordered⟩

theorem ValidLock.reordered (valid : ValidLock lock)
    (h : Reordered lock other) : ValidLock other := by
  have same := h.same
  constructor
  case schema => rw [same]; exact valid.schema
  case package => rw [same]; exact valid.package
  case version => rw [same]; exact valid.version
  case path => rw [same]; exact valid.path
  case entries =>
    intro entry mem
    obtain ⟨original, here, reordered⟩ := h.mem_right mem
    exact (valid.entries original here).reordered reordered
  case modules =>
    exact (h.map_perm fun _ _ reordered => reordered.module).nodup_iff.mp valid.modules
  case certificates =>
    exact (h.map_perm fun _ _ reordered => congrArg (·.value) reordered.certificate).nodup_iff.mp
      valid.certificates

/-! ### Normal forms -/

theorem nameLe_antisymm {left right : Name} (less : nameLe left right) (more : nameLe right left) :
    left = right := by
  cases left
  cases right
  exact congrArg Name.mk (le_antisymm (α := List String) less more)

instance nameLe_total {α : Type} (nameOf : α → Name) :
    Std.Total fun left right => nameLe (nameOf left) (nameOf right) :=
  ⟨fun left right => le_total (nameOf left).components (nameOf right).components⟩

instance nameLe_trans {α : Type} (nameOf : α → Name) :
    IsTrans α fun left right => nameLe (nameOf left) (nameOf right) :=
  ⟨fun _ _ _ first second => le_trans (α := List String) first second⟩

theorem sortedImports_reordered {entry other : PackageLockEntry}
    (distinct : (entry.imports.map (·.module)).Nodup) (h : ReorderedEntry entry other) :
    sortedImports other = sortedImports entry := by
  have sorted : other.imports.insertionSort (fun left right => nameLe left.module right.module) =
      entry.imports.insertionSort fun left right => nameLe left.module right.module := by
    refine (Sorted.insertionSort_eq_of_perm h.imports ?_).symm
    intro left hleft right hright less more
    exact List.inj_on_of_nodup_map distinct hleft hright (nameLe_antisymm less more)
  rw [sortedImports, sorted, h.same]
  rfl

/-- Sorting goes by the module, which the order of imports does not change. -/
theorem insertionSort_map_sortedImports (entries : List PackageLockEntry) :
    (entries.insertionSort fun left right => nameLe left.module right.module).map sortedImports =
      (entries.map sortedImports).insertionSort fun left right =>
        nameLe left.module right.module :=
  List.map_insertionSort _ _ _ _ fun _ _ _ _ => Iff.rfl

theorem normalizedPackageLock_reordered (valid : ValidLock lock)
    (h : Reordered lock other) : normalizedPackageLock other = normalizedPackageLock lock := by
  have perm : (lock.entries.map sortedImports).Perm (other.entries.map sortedImports) := by
    obtain ⟨entries, perm, pointwise⟩ := h.entries
    have same : entries.map sortedImports = other.entries.map sortedImports := by
      have distinct : ∀ entry ∈ entries, (entry.imports.map (·.module)).Nodup := fun entry mem =>
        (valid.entries entry (perm.mem_iff.mpr mem)).imports.distinct
      clear perm
      generalize other.entries = others at pointwise
      induction pointwise with
      | nil => rfl
      | cons first _ ih =>
        rw [List.forall_mem_cons] at distinct
        rw [List.map_cons, List.map_cons, sortedImports_reordered distinct.1 first, ih distinct.2]
    exact same ▸ perm.map sortedImports
  have distinct : ((lock.entries.map sortedImports).map (·.module)).Nodup := by
    rw [List.map_map]
    exact valid.modules
  have sorted := Sorted.insertionSort_eq_of_perm
    (r := fun left right : PackageLockEntry => nameLe left.module right.module) perm
    fun left hleft right hright less more =>
      List.inj_on_of_nodup_map distinct hleft hright (nameLe_antisymm less more)
  rw [normalizedPackageLock, normalizedPackageLock, insertionSort_map_sortedImports,
    insertionSort_map_sortedImports, ← sorted, h.same]

end NpaCore.Package
