import NpaCore.Kernel.UniverseSoundness
import NpaCore.Lib.Sorted
import NpaCore.Reference.Universe
import NpaCore.Syntax.Renaming

/-!
# The two universe solvers side by side

The names of the reference checker are renamed into names of the kernel, and the two solvers
are run on the same question. The renaming is a parameter: under any renaming that keeps the
order of the names that occur, each function of the reference solver and its counterpart
both succeed, with results that the renaming relates, or both fail.

Numerals below `2 ^ 32` are read alike, so levels are taken to be no deeper than that.

## Main results

`new_matches`: the contexts are both built, with one closed table, or both rejected.
`entailsLevelLe_matches`: the answers are equal, or both solvers fail.
-/

namespace NpaCore.Reference

open NpaCore.Kernel (UniverseConstraintRelation relationCmp)
open NpaCore.Level (mapNames KeepsOrder normalizeLevel normalizeLevel_size normalizeLevel_height
  levelEqStackSafe levelEqStackSafe_iff levelAsNat levelAsNatFrom renormalize_eq levelCmpStackSafe)
open ReferenceModuleName (isUnresolvedUniverseMetaName isUnresolvedUniverseMetaName_eq)
open Result (Matches matches_bind matches_ensure matches_okOr matches_unit
  matches_forEach matches_foldEach matches_bind_left matches_bind_right)

/-! ### Numerals -/

variable {level : ReferenceCoreLevel}

theorem height_of_referenceLevelAsNat {n : Nat}
    (small : level.height ≤ 2 ^ 32) (h : referenceLevelAsNat level = some n) :
    n + 1 = level.height := by
  induction level generalizing n with
  | zero =>
    cases h
    rfl
  | succ inner ih =>
    obtain ⟨m, found, rfl⟩ := Option.map_eq_some_iff.mp h
    simp only [Level.height] at small ⊢
    have inside := ih (by omega) found
    rw [Nat.mod_eq_of_lt (by omega), inside]
  | max | imax | param => cases h

theorem levelAsNatFrom_eq {value : Nat} (small : value + level.height ≤ 2 ^ 32) :
    levelAsNatFrom value level = (referenceLevelAsNat level).map (value + ·) := by
  induction level generalizing value with
  | zero => rfl
  | succ inner ih =>
    simp only [Level.height] at small
    have room : value + 1 < 0x100000000 := by
      have inside := Level.height_pos inner
      omega
    rw [levelAsNatFrom, if_pos room, ih (by omega), referenceLevelAsNat]
    cases found : referenceLevelAsNat inner with
    | none => rfl
    | some n =>
      have inside := height_of_referenceLevelAsNat (by omega) found
      simp only [Option.map_some]
      rw [Nat.mod_eq_of_lt (by omega)]
      congr 1
      omega
  | max | imax | param => rfl

theorem referenceReader_reads : referenceReader.ReadsUpTo (2 ^ 32) := by
  intro level small
  rw [levelAsNat, levelAsNatFrom_eq (by omega)]
  simp [referenceReader]

/-! ### Levels -/

/-- A level over the names whose numerals are read alike. -/
structure Admissible (names : Set ReferenceModuleName) (level : ReferenceCoreLevel) : Prop where
  overNames : level.Over names
  small : level.height ≤ 2 ^ 32

/-- A level that normalisation leaves as it is. -/
def Normal (level : ReferenceCoreLevel) : Prop := normalizeLevel level = level

/-- A renaming into names of the kernel that keeps the order and brings in no metavariable. -/
structure Renames (f : ReferenceModuleName → String) (names : Set ReferenceModuleName) : Prop where
  keeps : KeepsOrder f names
  resolved : ∀ name ∈ names, Kernel.isUnresolvedUniverseMetaParam (f name) = false

variable {params : List ReferenceModuleName} {lhs rhs : ReferenceCoreLevel}

section Levels

variable {f : ReferenceModuleName → String} {names : Set ReferenceModuleName}

theorem Admissible.succ {inner : ReferenceCoreLevel} (h : Admissible names (.succ inner)) :
    Admissible names inner :=
  ⟨h.overNames, Nat.le_of_succ_le h.small⟩

theorem Admissible.max (h : Admissible names (.max lhs rhs)) :
    Admissible names lhs ∧ Admissible names rhs := by
  obtain ⟨left, right⟩ := Level.over_max.mp h.overNames
  have small := h.small
  simp only [Level.height] at small
  exact ⟨⟨left, by omega⟩, ⟨right, by omega⟩⟩

theorem Admissible.imax (h : Admissible names (.imax lhs rhs)) :
    Admissible names lhs ∧ Admissible names rhs := by
  obtain ⟨left, right⟩ := Level.over_imax.mp h.overNames
  have small := h.small
  simp only [Level.height] at small
  exact ⟨⟨left, by omega⟩, ⟨right, by omega⟩⟩

theorem Admissible.normalize (h : Admissible names level) :
    Admissible names (normalizeLevel level) :=
  ⟨h.overNames.normalizeLevel, (normalizeLevel_height level).trans h.small⟩

/-- The reference checker normalises as the kernel does, with the names in its own order. -/
theorem normalizeReferenceLevel_eq (h : level.height ≤ 2 ^ 32) :
    normalizeReferenceLevel level = normalizeLevel level :=
  renormalize_eq referenceReader_reads h

theorem Normal.reference (normal : Normal level)
    (h : Admissible names level) : normalizeReferenceLevel level = level :=
  (normalizeReferenceLevel_eq h.small).trans normal

theorem Normal.succ {inner : ReferenceCoreLevel} (normal : Normal (.succ inner)) : Normal inner :=
  Level.succ.inj normal

theorem Renames.injOn (renames : Renames f names) {a b : ReferenceModuleName} (ha : a ∈ names)
    (hb : b ∈ names) (same : f a = f b) : a = b := by
  refine Std.LawfulEqOrd.eq_of_compare ?_
  rw [← renames.keeps a ha b hb, same, Std.ReflOrd.compare_self]

theorem Renames.normal (renames : Renames f names)
    (overNames : level.Over names) (normal : Normal level) :
    normalizeLevel (mapNames f level) = mapNames f level := by
  rw [renames.keeps.normalizeLevel overNames, normal]

theorem Renames.levelEq (renames : Renames f names)
    (left : lhs.Over names) (right : rhs.Over names) :
    levelEqStackSafe (mapNames f lhs) (mapNames f rhs) = decide (lhs = rhs) := by
  rw [renames.keeps.levelEq left right, Bool.eq_iff_iff, levelEqStackSafe_iff, decide_eq_true_iff]

theorem contains_map (renames : Renames f names) {delta : List ReferenceModuleName}
    (sub : ∀ param ∈ delta, param ∈ names) {name : ReferenceModuleName} (mem : name ∈ names) :
    (delta.map f).contains (f name) = delta.contains name := by
  rw [Bool.eq_iff_iff, List.contains_iff_mem, List.contains_iff_mem, List.mem_map]
  constructor
  · rintro ⟨param, hparam, same⟩
    exact renames.injOn (sub param hparam) mem same ▸ hparam
  · intro hname
    exact ⟨name, hname, rfl⟩

theorem ensureLevelWf_matches (renames : Renames f names) (offset : Nat)
    {delta : List ReferenceModuleName} (sub : ∀ param ∈ delta, param ∈ names)
    (overNames : level.Over names) :
    Matches (fun _ _ => True) (ensureLevelWf offset delta level)
      (Kernel.ensureLevelWf (delta.map f) (mapNames f level)) := by
  induction level with
  | zero => trivial
  | succ inner ih => exact ih overNames
  | max lhs rhs ihl ihr =>
    obtain ⟨left, right⟩ := Level.over_max.mp overNames
    exact matches_bind (ihl left) fun _ _ _ _ _ => ihr right
  | imax lhs rhs ihl ihr =>
    obtain ⟨left, right⟩ := Level.over_imax.mp overNames
    exact matches_bind (ihl left) fun _ _ _ _ _ => ihr right
  | param name =>
    have mem := Level.over_param.mp overNames
    refine matches_bind (matches_ensure ?_) fun _ _ _ _ _ => matches_ensure ?_
    · rw [isUnresolvedUniverseMetaName_eq, renames.resolved name mem]
    · rw [contains_map renames sub mem]

theorem ensureReferenceCanonicalLevel_matches (renames : Renames f names) (offset : Nat)
    (sub : ∀ param ∈ params, param ∈ names) (h : Admissible names level) :
    Matches (fun _ _ => True) (ensureReferenceCanonicalLevel offset level params)
      (Kernel.ensureCanonicalLevel (params.map f) (mapNames f level)) := by
  refine matches_bind (ensureLevelWf_matches renames offset sub h.overNames) fun _ _ _ _ _ => ?_
  refine matches_ensure ?_
  rw [renames.keeps.normalizeLevel h.overNames, renames.levelEq h.normalize.overNames h.overNames,
    normalizeReferenceLevel_eq h.small]

end Levels

/-! ### Parameters -/

section Params

variable {f : ReferenceModuleName → String} {names : Set ReferenceModuleName}

theorem strictlySorted_map (renames : Renames f names) (sub : ∀ param ∈ params, param ∈ names) :
    Kernel.strictlySorted (params.map f) = strictlySorted params := by
  induction params with
  | nil => rfl
  | cons first rest ih =>
    obtain ⟨hfirst, sub⟩ := List.forall_mem_cons.mp sub
    cases rest with
    | nil => rfl
    | cons second rest =>
      simp only [List.map_cons, Kernel.strictlySorted, strictlySorted] at ih ⊢
      rw [renames.keeps first hfirst second (sub second List.mem_cons_self), ih sub]

theorem ensureUniqueFrom_matches (renames : Renames f names) (offset : Nat)
    {seen params : List ReferenceModuleName} (hseen : ∀ param ∈ seen, param ∈ names)
    (sub : ∀ param ∈ params, param ∈ names) :
    Matches (fun _ _ => True) (ensureUniqueFrom offset seen params)
      (Kernel.checkUniverseParams (seen.map f) (params.map f)) := by
  induction params generalizing seen with
  | nil => trivial
  | cons param rest ih =>
    obtain ⟨hparam, sub⟩ := List.forall_mem_cons.mp sub
    have known : Result.ensure (!Kernel.isUnresolvedUniverseMetaParam (f param))
        (Kernel.Error.unresolvedUniverseMeta (f param)) = .ok () := by
      rw [renames.resolved param hparam]
      rfl
    rw [List.map_cons, Kernel.checkUniverseParams, known]
    change Matches _ _ (Result.ensure _ _ >>= fun _ => Kernel.checkUniverseParams _ _)
    refine matches_bind (matches_ensure ?_) fun _ _ _ _ _ => ?_
    · rw [contains_map renames hseen hparam]
    · exact ih (List.forall_mem_cons.mpr ⟨hparam, hseen⟩) sub

theorem pairwise_of_strictlySorted
    (sorted : strictlySorted params = true) : params.Pairwise fun a b => compare a b = .lt := by
  have trans : IsTrans ReferenceModuleName fun a b => compare a b = .lt :=
    ⟨fun _ _ _ first second => Std.TransCmp.lt_trans first second⟩
  rw [← List.isChain_iff_pairwise]
  induction params with
  | nil => exact .nil
  | cons first rest ih =>
    cases rest with
    | nil => exact .singleton first
    | cons second rest =>
      simp only [strictlySorted, Bool.and_eq_true, Ordering.isLT_iff_eq_lt] at sorted
      exact .cons_cons sorted.1 (ih sorted.2)

theorem nodup_of_strictlySorted (sorted : strictlySorted params = true) : params.Nodup := by
  refine (pairwise_of_strictlySorted sorted).imp fun less same => ?_
  rw [same, Std.ReflOrd.compare_self] at less
  cases less

/-- The reference checker asks for the order first and the kernel for distinct names. -/
theorem validateReferenceUniverseParams_matches (renames : Renames f names) (offset : Nat)
    (sub : ∀ param ∈ params, param ∈ names) :
    Matches (fun _ validated => validated = params.map f ∧ params.Nodup)
      (validateReferenceUniverseParams offset params)
      (Kernel.validateUniverseParams (params.map f)) := by
  have resolved : params.any isUnresolvedUniverseMetaName = false := by
    rw [List.any_eq_false]
    intro name _
    rw [isUnresolvedUniverseMetaName_eq]
    decide
  have unique : Matches (fun _ _ => True) (ensureUniqueFrom offset [] params)
      (Kernel.checkUniverseParams [] (params.map f)) :=
    ensureUniqueFrom_matches renames offset nofun sub
  rw [validateReferenceUniverseParams, Kernel.validateUniverseParams, resolved,
    strictlySorted_map renames sub, ensureUniqueNames]
  cases sorted : strictlySorted params with
  | true =>
    generalize Kernel.checkUniverseParams [] (params.map f) = checked at unique
    change Matches _ (ensureUniqueFrom offset [] params) _
    generalize ensureUniqueFrom offset [] params = distinct at unique
    cases distinct with
    | error =>
      cases checked with
      | error => trivial
      | ok => exact unique.elim
    | ok =>
      cases checked with
      | error => exact unique.elim
      | ok => exact ⟨rfl, nodup_of_strictlySorted sorted⟩
  | false =>
    generalize Kernel.checkUniverseParams [] (params.map f) = checked
    cases checked <;> trivial

end Params

/-! ### Constraints -/

variable {constraints : List ReferenceUniverseConstraint}

namespace ReferenceUniverseConstraint

def rename (f : ReferenceModuleName → String) (constraint : ReferenceUniverseConstraint) :
    Kernel.UniverseConstraint :=
  ⟨mapNames f constraint.lhs, constraint.relation, mapNames f constraint.rhs⟩

structure Admissible (names : Set ReferenceModuleName) (constraint : ReferenceUniverseConstraint) :
    Prop where
  lhs : Reference.Admissible names constraint.lhs
  rhs : Reference.Admissible names constraint.rhs

theorem relationCmp_swap (lhs rhs : UniverseConstraintRelation) :
    relationCmp lhs rhs = (relationCmp rhs lhs).swap := by
  cases lhs <;> cases rhs <;> rfl

theorem eq_of_relationCmp {lhs rhs : UniverseConstraintRelation} (h : relationCmp lhs rhs = .eq) :
    lhs = rhs := by
  cases lhs <;> cases rhs <;> first | rfl | cases h

instance : Std.OrientedCmp ReferenceUniverseConstraint.cmp where
  eq_swap {lhs rhs} := by
    rw [cmp, cmp, Ordering.swap_then, Ordering.swap_then, Level.levelCmpStackSafe_swap,
      Level.levelCmpStackSafe_swap, ← relationCmp_swap]

theorem cmp_eq_iff {lhs rhs : ReferenceUniverseConstraint} : lhs.cmp rhs = .eq ↔ lhs = rhs := by
  constructor
  · intro same
    obtain ⟨left, rest⟩ := Level.then_eq_eq same
    obtain ⟨relation, right⟩ := Level.then_eq_eq rest
    cases lhs
    cases rhs
    cases Level.levelCmpStackSafe_eq left
    cases eq_of_relationCmp relation
    cases Level.levelCmpStackSafe_eq right
    rfl
  · rintro rfl
    exact Std.ReflCmp.compare_self

theorem adjacentEqual_cons {first second : ReferenceUniverseConstraint}
    {rest : List ReferenceUniverseConstraint} :
    adjacentEqual (first :: second :: rest) = false ↔
      first ≠ second ∧ adjacentEqual (second :: rest) = false := by
  simp [adjacentEqual]

/-- Sorting changes nothing and no neighbours are equal: each is before the next one. -/
theorem strictOrder_iff :
    constraints = sortConstraints constraints ∧ adjacentEqual constraints = false ↔
      constraints.IsChain fun a b => a.cmp b = .lt := by
  rw [eq_comm, sortConstraints, Sorted.insertionSort_eq_self_iff]
  induction constraints with
  | nil => simp [adjacentEqual]
  | cons first rest ih =>
    cases rest with
    | nil => simp [adjacentEqual]
    | cons second rest =>
      rw [List.isChain_cons_cons, List.isChain_cons_cons, ← ih, adjacentEqual_cons, ne_eq,
        ← cmp_eq_iff]
      cases first.cmp second <;> simp

variable {f : ReferenceModuleName → String} {names : Set ReferenceModuleName}

theorem cmp_rename (renames : Renames f names) {lhs rhs : ReferenceUniverseConstraint}
    (left : lhs.Admissible names) (right : rhs.Admissible names) :
    Kernel.universeConstraintCmpStackSafe (lhs.rename f) (rhs.rename f) = lhs.cmp rhs := by
  simp only [Kernel.universeConstraintCmpStackSafe, rename, cmp,
    renames.keeps.levelCmp left.lhs.overNames right.lhs.overNames,
    renames.keeps.levelCmp left.rhs.overNames right.rhs.overNames]

theorem ensureConstraintOrder_iff (renames : Renames f names)
    (admissible : ∀ c ∈ constraints, c.Admissible names) :
    Kernel.ensureConstraintOrder (constraints.map (rename f)) = .ok () ↔
      constraints.IsChain fun a b => a.cmp b = .lt := by
  induction constraints with
  | nil => simp [Kernel.ensureConstraintOrder]
  | cons first rest ih =>
    obtain ⟨hfirst, admissible⟩ := List.forall_mem_cons.mp admissible
    cases rest with
    | nil => simp [Kernel.ensureConstraintOrder]
    | cons second rest =>
      rw [List.isChain_cons_cons, ← ih admissible, List.map_cons, List.map_cons,
        Kernel.ensureConstraintOrder,
        cmp_rename renames hfirst (admissible second List.mem_cons_self)]
      cases first.cmp second <;> simp

end ReferenceUniverseConstraint

section Constraints

variable {f : ReferenceModuleName → String} {names : Set ReferenceModuleName}

theorem ensureReferenceUniverseConstraintsWf_matches (renames : Renames f names) (offset : Nat)
    (sub : ∀ param ∈ params, param ∈ names) (admissible : ∀ c ∈ constraints, c.Admissible names) :
    Matches (fun _ _ => True) (ensureReferenceUniverseConstraintsWf offset params constraints)
      (Kernel.ensureUniverseConstraintsWf (params.map f)
        (constraints.map (ReferenceUniverseConstraint.rename f))) := by
  refine matches_bind (matches_forEach fun c hc => ?_) fun _ _ _ _ _ => matches_unit ?_
  · have parts := admissible c hc
    exact matches_bind (ensureReferenceCanonicalLevel_matches renames offset sub parts.lhs)
      fun _ _ _ _ _ => ensureReferenceCanonicalLevel_matches renames offset sub parts.rhs
  · rw [ReferenceUniverseConstraint.ensureConstraintOrder_iff renames admissible,
      ← ReferenceUniverseConstraint.strictOrder_iff]
    simp only [Result.bind_eq_ok, Result.ensure_eq_ok, decide_eq_true_iff, Bool.not_eq_true']
    constructor
    · rintro ⟨_, sorted, distinct⟩
      exact ⟨sorted, sorted ▸ distinct⟩
    · rintro ⟨sorted, distinct⟩
      exact ⟨(), sorted, sorted ▸ distinct⟩

end Constraints

/-! ### Lists of atoms -/

/-- Of a sorted list, the copies that are kept are in strict order. -/
theorem dedupConsecutive_pairwise {α : Type} [DecidableEq α] {cmp : α → α → Ordering}
    [Std.TransCmp cmp] [Std.LawfulEqCmp cmp] {l : List α}
    (sorted : l.Pairwise fun a b => (cmp a b).isLE = true) :
    (Kernel.dedupConsecutive l).Pairwise fun a b => cmp a b = .lt := by
  induction l with
  | nil => exact .nil
  | cons first rest ih =>
    cases rest with
    | nil => exact .cons nofun .nil
    | cons second rest =>
      rw [Kernel.dedupConsecutive]
      split
      next => exact ih sorted.of_cons
      next differ =>
        refine .cons (fun later mem => ?_) (ih sorted.of_cons)
        have le := List.rel_of_pairwise_cons sorted (Kernel.mem_dedupConsecutive.mp mem)
        refine (Ordering.isLE_iff_eq_lt_or_eq_eq.mp le).resolve_right fun same => ?_
        -- a later copy of the first element would have the second one between
        have between : (cmp second later).isLE = true := by
          rcases List.mem_cons.mp (Kernel.mem_dedupConsecutive.mp mem) with rfl | far
          · exact Std.ReflCmp.isLE_rfl
          · exact List.rel_of_pairwise_cons sorted.of_cons far
        have first_le := List.rel_of_pairwise_cons sorted List.mem_cons_self
        cases Std.LawfulEqCmp.eq_of_compare same
        exact differ (Std.LawfulEqCmp.eq_of_compare (Std.OrientedCmp.isLE_antisymm first_le between))

namespace ReferenceAtomBase

def name? : ReferenceAtomBase → Option ReferenceModuleName
  | zero => none
  | param name => some name

theorem cmp_eq (lhs rhs : ReferenceAtomBase) : lhs.cmp rhs = compare lhs.name? rhs.name? := by
  cases lhs <;> cases rhs <;> rfl

def rename (f : ReferenceModuleName → String) : ReferenceAtomBase → Kernel.AtomBase
  | zero => .zero
  | param name => .param (f name)

/-- The base is zero or one of the names. -/
def Over (names : Set ReferenceModuleName) : ReferenceAtomBase → Prop
  | zero => True
  | param name => name ∈ names

end ReferenceAtomBase

namespace ReferenceAtom

/-- By name, with zero first, and then by offset. -/
theorem cmp_eq : cmp = compareLex (compareOn fun atom : ReferenceAtom => atom.base.name?)
    (compareOn fun atom => atom.offset) := by
  funext lhs rhs
  rw [cmp, ReferenceAtomBase.cmp_eq, compareLex, compareOn, compareOn]

instance : Std.TransCmp ReferenceAtom.cmp := by
  rw [cmp_eq]
  infer_instance

theorem eq_of_cmp {lhs rhs : ReferenceAtom} (h : lhs.cmp rhs = .eq) : lhs = rhs := by
  obtain ⟨base, offset⟩ := Level.then_eq_eq h
  cases lhs with
  | mk lhsBase lhsOffset =>
    cases rhs with
    | mk rhsBase rhsOffset =>
      cases Nat.compare_eq_eq.mp offset
      rw [ReferenceAtomBase.cmp_eq] at base
      have names := Std.LawfulEqOrd.eq_of_compare base
      cases lhsBase <;> cases rhsBase <;> simp [ReferenceAtomBase.name?] at names
      · rfl
      · rw [names]

instance : Std.LawfulEqCmp ReferenceAtom.cmp where
  eq_of_compare := eq_of_cmp

def rename (f : ReferenceModuleName → String) (atom : ReferenceAtom) : Kernel.Atom :=
  ⟨atom.base.rename f, atom.offset⟩

/-- An atom of an admissible level. -/
structure Within (names : Set ReferenceModuleName) (atom : ReferenceAtom) : Prop where
  overNames : atom.base.Over names
  small : atom.offset < 2 ^ 32

end ReferenceAtom

variable {atoms : List ReferenceAtom}

theorem mem_sortDedup {atom : ReferenceAtom} :
    atom ∈ sortDedup atoms ↔ atom ∈ atoms := by
  rw [sortDedup, Kernel.mem_dedupConsecutive, List.mem_insertionSort]

theorem sortDedup_pairwise (atoms : List ReferenceAtom) :
    (sortDedup atoms).Pairwise fun a b => a.cmp b = .lt :=
  dedupConsecutive_pairwise (Sorted.insertionSort_pairwise atoms)

/-- Sorting the parts before the whole changes nothing. -/
theorem sortDedup_append (left right : List ReferenceAtom) :
    sortDedup (sortDedup left ++ sortDedup right) = sortDedup (left ++ right) := by
  refine Sorted.eq_of_mem_iff (sortDedup_pairwise _) (sortDedup_pairwise _) fun atom => ?_
  simp only [mem_sortDedup, List.mem_append]

section Atoms

variable {f : ReferenceModuleName → String} {names : Set ReferenceModuleName}

theorem baseCmp_rename (renames : Renames f names) {lhs rhs : ReferenceAtomBase}
    (left : lhs.Over names) (right : rhs.Over names) :
    (lhs.rename f).cmp (rhs.rename f) = lhs.cmp rhs := by
  cases lhs with
  | zero => cases rhs <;> rfl
  | param l =>
    cases rhs with
    | zero => rfl
    | param r => exact renames.keeps l left r right

theorem atomCmp_rename (renames : Renames f names) {lhs rhs : ReferenceAtom}
    (left : lhs.base.Over names) (right : rhs.base.Over names) :
    (lhs.rename f).cmp (rhs.rename f) = lhs.cmp rhs := by
  simp only [Kernel.Atom.cmp, ReferenceAtom.rename, ReferenceAtom.cmp,
    baseCmp_rename renames left right]

theorem atomRename_inj (renames : Renames f names) {lhs rhs : ReferenceAtom}
    (left : lhs.base.Over names) (right : rhs.base.Over names) :
    lhs.rename f = rhs.rename f ↔ lhs = rhs := by
  refine ⟨fun same => ReferenceAtom.eq_of_cmp ?_, congrArg _⟩
  rw [← atomCmp_rename renames left right, same, atomCmp_rename renames right right]
  exact Std.ReflCmp.compare_self

theorem dedupConsecutive_rename (renames : Renames f names)
    (overNames : ∀ atom ∈ atoms, atom.base.Over names) :
    Kernel.dedupConsecutive (atoms.map (ReferenceAtom.rename f)) =
      (Kernel.dedupConsecutive atoms).map (ReferenceAtom.rename f) := by
  induction atoms with
  | nil => rfl
  | cons first rest ih =>
    obtain ⟨hfirst, overNames⟩ := List.forall_mem_cons.mp overNames
    cases rest with
    | nil => rfl
    | cons second rest =>
      have ih := ih overNames
      simp only [List.map_cons, Kernel.dedupConsecutive] at ih ⊢
      simp only [atomRename_inj renames hfirst (overNames second List.mem_cons_self), ih]
      split <;> rfl

theorem sortDedupAtoms_rename (renames : Renames f names)
    (overNames : ∀ atom ∈ atoms, atom.base.Over names) :
    Kernel.sortDedupAtoms (atoms.map (ReferenceAtom.rename f)) =
      (sortDedup atoms).map (ReferenceAtom.rename f) := by
  rw [Kernel.sortDedupAtoms, ← List.map_insertionSort (fun a b : ReferenceAtom => (a.cmp b).isLE = true),
    dedupConsecutive_rename renames, sortDedup]
  · exact fun atom mem => overNames atom ((List.mem_insertionSort _).mp mem)
  · intro a ha b hb
    rw [atomCmp_rename renames (overNames a ha) (overNames b hb)]

end Atoms

/-! ### Decomposition -/

section Decomposition

variable {f : ReferenceModuleName → String} {names : Set ReferenceModuleName} {offset : Nat}

/-- One step of `decompose_reference_atom` on a level that is normal. -/
theorem decomposeReferenceAtom_step
    (shape : normalizeReferenceLevel level = level) : decomposeReferenceAtom offset level =
      match level with
      | .zero => .ok ⟨.zero, 0⟩
      | .param name => .ok ⟨.param name, 0⟩
      | .succ inner => do
        let atom ← decomposeReferenceAtom offset inner
        Result.ensure (atom.offset + 1 < 2 ^ 64) (typeError offset .unsupportedUniverseConstraint)
        let _ ← referenceOffsetBound offset { atom with offset := atom.offset + 1 }
        .ok { atom with offset := atom.offset + 1 }
      | .max _ _ | .imax _ _ => .error (typeError offset .unsupportedUniverseConstraint) := by
  rw [decomposeReferenceAtom]
  split <;> next same => rw [shape] at same; subst same; rfl

/-- The atom of a tower of successors. Its offset is below the height, so no bound on offsets
    is met on the way. -/
theorem decomposeReferenceAtom_walk (h : Admissible names level)
    (normal : Normal level) (whole : Kernel.Level) {start : Nat}
    (room : start + level.height ≤ 2 ^ 63) :
    Matches (fun atom other => other = ⟨atom.base.rename f, start + atom.offset⟩ ∧
        atom.offset < level.height ∧ atom.base.Over names)
      (decomposeReferenceAtom offset level)
      (Kernel.decomposeAtomFrom whole start (mapNames f level)) := by
  rw [decomposeReferenceAtom_step (normal.reference h)]
  induction level generalizing start with
  | zero => exact ⟨rfl, Nat.one_pos, trivial⟩
  | succ inner ih =>
    have inside := h.succ
    simp only [Level.height] at room
    have walk : Matches _ _ (Kernel.decomposeAtomFrom whole (start + 1) (mapNames f inner)) :=
      ih inside normal.succ (by omega)
    rw [← decomposeReferenceAtom_step (normal.succ.reference inside)] at walk
    simp only [mapNames, Kernel.decomposeAtomFrom]
    rw [if_pos (by omega)]
    refine matches_bind_left walk ?_
    rintro atom _ ⟨rfl, below, overNames⟩
    have small := inside.small
    have fits : atom.offset + 1 < 2 ^ 63 := by omega
    have counts : atom.offset + 1 < 2 ^ 64 := by omega
    simp only [bind, Except.bind, Result.ensure, counts, decide_true, if_true,
      referenceOffsetBound, fits]
    refine ⟨?_, Nat.succ_lt_succ below, overNames⟩
    rw [Nat.add_assoc, Nat.add_comm 1]
  | max lhs rhs => trivial
  | imax lhs rhs => trivial
  | param name => exact ⟨rfl, Nat.one_pos, Level.over_param.mp h.overNames⟩

theorem decomposeReferenceAtom_matches (h : Admissible names level) (normal : Normal level) :
    Matches (fun atom other => other = atom.rename f ∧ atom.Within names)
      (decomposeReferenceAtom offset level) (Kernel.decomposeAtom (mapNames f level)) := by
  have small := h.small
  have walk : Matches _ (decomposeReferenceAtom offset level)
      (Kernel.decomposeAtomFrom (mapNames f level) 0 (mapNames f level)) :=
    decomposeReferenceAtom_walk h normal (mapNames f level) (by omega)
  refine matches_bind_right walk ?_
  rintro atom _ ⟨rfl, below, overNames⟩
  have fits : atom.offset < 2 ^ 63 := by omega
  simp only [bind, Except.bind, Kernel.offsetBound, Nat.zero_add, fits, if_true]
  exact ⟨rfl, overNames, Nat.lt_of_lt_of_le below small⟩

/-- The kernel collects the atoms in the order of a walk and sorts them at the end, where the
    reference checker sorts at every node. -/
def Visits (f : ReferenceModuleName → String) (names : Set ReferenceModuleName)
    (atoms : List ReferenceAtom) (raw : List Kernel.Atom) : Prop :=
  ∃ visited : List ReferenceAtom, raw = visited.map (ReferenceAtom.rename f) ∧
    atoms = sortDedup visited ∧ ∀ atom ∈ visited, atom.Within names

theorem visits_append {left right : List ReferenceAtom} {rawLeft rawRight : List Kernel.Atom}
    (first : Visits f names left rawLeft) (second : Visits f names right rawRight) :
    Visits f names (sortDedup (left ++ right)) (rawLeft ++ rawRight) := by
  obtain ⟨visited, rfl, rfl, within⟩ := first
  obtain ⟨visited', rfl, rfl, within'⟩ := second
  refine ⟨visited ++ visited', List.map_append.symm, sortDedup_append _ _, fun atom mem => ?_⟩
  exact (List.mem_append.mp mem).elim (within atom) (within' atom)

theorem single_visits (h : Admissible names level) (normal : Normal level) :
    Matches (Visits f names)
      (decomposeReferenceAtom offset level >>= fun atom => .ok [atom])
      (Kernel.decomposeAtom (mapNames f level) >>= fun atom => .ok [atom]) := by
  refine matches_bind (decomposeReferenceAtom_matches h normal) ?_
  rintro atom _ _ _ ⟨rfl, within⟩
  exact ⟨[atom], rfl, rfl, List.forall_mem_singleton.mpr within⟩

/-- One step of `decompose_reference_level_expr` on a level that is normal. -/
theorem decomposeReferenceLevelExpr_step
    (shape : normalizeReferenceLevel level = level) : decomposeReferenceLevelExpr offset level =
      match level with
      | .max lhs rhs => do
        let atoms ← decomposeReferenceLevelExpr offset lhs
        let more ← decomposeReferenceLevelExpr offset rhs
        .ok (sortDedup (atoms ++ more))
      | normalized => decomposeReferenceAtom offset normalized >>= fun atom => .ok [atom] := by
  rw [decomposeReferenceLevelExpr]
  split
  next same => rw [shape] at same; subst same; rfl
  next other =>
    rw [shape] at other ⊢
    cases level with
    | max lhs rhs => exact (other lhs rhs rfl).elim
    | zero | succ _ | imax _ _ | param _ => rfl

/-- One step of `decompose_reference_lhs_level_expr` on a level that is normal. -/
theorem decomposeReferenceLhsLevelExpr_step
    (shape : normalizeReferenceLevel level = level) : decomposeReferenceLhsLevelExpr offset level =
      match level with
      | .max lhs rhs | .imax lhs rhs => do
        let atoms ← decomposeReferenceLhsLevelExpr offset lhs
        let more ← decomposeReferenceLhsLevelExpr offset rhs
        .ok (sortDedup (atoms ++ more))
      | normalized => decomposeReferenceAtom offset normalized >>= fun atom => .ok [atom] := by
  rw [decomposeReferenceLhsLevelExpr]
  split
  next same => rw [shape] at same; subst same; rfl
  next same => rw [shape] at same; subst same; rfl
  next notMax notIMax =>
    rw [shape] at notMax notIMax ⊢
    cases level with
    | max lhs rhs => exact (notMax lhs rhs rfl).elim
    | imax lhs rhs => exact (notIMax lhs rhs rfl).elim
    | zero | succ _ | param _ => rfl

theorem decomposeReferenceLevelExpr_visits (h : Admissible names level) (normal : Normal level) :
    Matches (Visits f names) (decomposeReferenceLevelExpr offset level)
      (Kernel.maxAtoms (mapNames f level)) := by
  induction level with
  | max lhs rhs ihl ihr =>
    obtain ⟨left, right⟩ := h.max
    obtain ⟨lhsNormal, rhsNormal⟩ := Level.normal_of_max normal
    rw [decomposeReferenceLevelExpr_step (normal.reference h)]
    exact matches_bind (ihl left lhsNormal) fun _ _ _ _ first =>
      matches_bind (ihr right rhsNormal) fun _ _ _ _ second => visits_append first second
  | zero | succ _ | imax _ _ | param _ =>
    rw [decomposeReferenceLevelExpr_step (normal.reference h)]
    exact single_visits h normal

theorem decomposeReferenceLhsLevelExpr_visits (h : Admissible names level) (normal : Normal level) :
    Matches (Visits f names) (decomposeReferenceLhsLevelExpr offset level)
      (Kernel.lhsAtoms (mapNames f level)) := by
  induction level with
  | max lhs rhs ihl ihr =>
    obtain ⟨left, right⟩ := h.max
    obtain ⟨lhsNormal, rhsNormal⟩ := Level.normal_of_max normal
    rw [decomposeReferenceLhsLevelExpr_step (normal.reference h)]
    exact matches_bind (ihl left lhsNormal) fun _ _ _ _ first =>
      matches_bind (ihr right rhsNormal) fun _ _ _ _ second => visits_append first second
  | imax lhs rhs ihl ihr =>
    obtain ⟨left, right⟩ := h.imax
    obtain ⟨lhsNormal, rhsNormal⟩ := Level.normal_of_imax normal
    rw [decomposeReferenceLhsLevelExpr_step (normal.reference h)]
    exact matches_bind (ihl left lhsNormal) fun _ _ _ _ first =>
      matches_bind (ihr right rhsNormal) fun _ _ _ _ second => visits_append first second
  | zero | succ _ | param _ =>
    rw [decomposeReferenceLhsLevelExpr_step (normal.reference h)]
    exact single_visits h normal

/-- Lists of atoms that are renamed one by one. -/
def Renamed (f : ReferenceModuleName → String) (names : Set ReferenceModuleName)
    (atoms : List ReferenceAtom) (other : List Kernel.Atom) : Prop :=
  other = atoms.map (ReferenceAtom.rename f) ∧ ∀ atom ∈ atoms, atom.Within names

theorem Visits.renamed (renames : Renames f names)
    {raw : List Kernel.Atom} (h : Visits f names atoms raw) :
    Renamed f names atoms (Kernel.sortDedupAtoms raw) := by
  obtain ⟨visited, rfl, rfl, within⟩ := h
  exact ⟨sortDedupAtoms_rename renames fun atom mem => (within atom mem).overNames,
    fun atom mem => within atom (mem_sortDedup.mp mem)⟩

theorem decomposeReferenceLevelExpr_matches (renames : Renames f names)
    (h : Admissible names level) (normal : Normal level) :
    Matches (Renamed f names) (decomposeReferenceLevelExpr offset level)
      (Kernel.decomposeLevelExpr (mapNames f level)) := by
  rw [Kernel.decomposeLevelExpr, renames.normal h.overNames normal]
  exact matches_bind_right (decomposeReferenceLevelExpr_visits h normal) fun _ _ visits =>
    visits.renamed renames

theorem decomposeReferenceLhsLevelExpr_matches (renames : Renames f names)
    (h : Admissible names level) (normal : Normal level) :
    Matches (Renamed f names) (decomposeReferenceLhsLevelExpr offset level)
      (Kernel.decomposeLhsLevelExpr (mapNames f level)) := by
  rw [Kernel.decomposeLhsLevelExpr, renames.normal h.overNames normal]
  exact matches_bind_right (decomposeReferenceLhsLevelExpr_visits h normal) fun _ _ visits =>
    visits.renamed renames

def ReferenceAtomInequality.rename (f : ReferenceModuleName → String)
    (inequality : ReferenceAtomInequality) : Kernel.AtomInequality :=
  ⟨inequality.lhs.rename f, inequality.rhs.rename f⟩

/-- Both atoms are of admissible levels. -/
def ReferenceAtomInequality.Within (names : Set ReferenceModuleName)
    (inequality : ReferenceAtomInequality) : Prop :=
  inequality.lhs.Within names ∧ inequality.rhs.Within names

/-- Lists of inequalities that are renamed one by one. -/
def RenamedInequalities (f : ReferenceModuleName → String) (names : Set ReferenceModuleName)
    (inequalities : List ReferenceAtomInequality) (other : List Kernel.AtomInequality) : Prop :=
  other = inequalities.map (ReferenceAtomInequality.rename f) ∧
    ∀ inequality ∈ inequalities, inequality.Within names

theorem decomposeReferenceLeConstraint_matches (renames : Renames f names)
    (left : Admissible names lhs) (right : Admissible names rhs) :
    Matches (RenamedInequalities f names) (decomposeReferenceLeConstraint offset lhs rhs)
      (Kernel.decomposeLeConstraint (mapNames f lhs) (mapNames f rhs)) := by
  simp only [decomposeReferenceLeConstraint, Kernel.decomposeLeConstraint,
    normalizeReferenceLevel_eq left.small, normalizeReferenceLevel_eq right.small,
    renames.keeps.normalizeLevel left.overNames, renames.keeps.normalizeLevel right.overNames,
    renames.levelEq left.normalize.overNames right.normalize.overNames, decide_eq_true_iff]
  split
  next => exact ⟨rfl, by simp⟩
  next =>
    refine matches_bind (decomposeReferenceLhsLevelExpr_matches renames left.normalize
      (Level.normalizeLevel_normal lhs)) ?_
    rintro lhsAtoms _ _ _ ⟨rfl, lhsWithin⟩
    refine matches_bind (decomposeReferenceLevelExpr_matches renames right.normalize
      (Level.normalizeLevel_normal rhs)) ?_
    rintro rhsAtoms _ _ _ ⟨rfl, rhsWithin⟩
    rcases rhsAtoms with _ | ⟨rhsAtom, _ | ⟨other, others⟩⟩
    · trivial
    · refine ⟨by simp [ReferenceAtomInequality.rename], fun inequality mem => ?_⟩
      obtain ⟨atom, hatom, rfl⟩ := List.mem_map.mp mem
      exact ⟨lhsWithin atom hatom, rhsWithin rhsAtom List.mem_cons_self⟩
    · trivial

theorem decomposeReferenceConstraint_matches (renames : Renames f names)
    {constraint : ReferenceUniverseConstraint} (h : constraint.Admissible names) :
    Matches (RenamedInequalities f names) (decomposeReferenceConstraint offset constraint)
      (Kernel.decomposeConstraint (constraint.rename f)) := by
  obtain ⟨lhs, relation, rhs⟩ := constraint
  obtain ⟨left, right⟩ := h
  simp only at left right
  have forward : Matches _ (decomposeReferenceLeConstraint offset _ _) _ :=
    decomposeReferenceLeConstraint_matches renames left.normalize right.normalize
  have backward : Matches _ (decomposeReferenceLeConstraint offset _ _) _ :=
    decomposeReferenceLeConstraint_matches renames right.normalize left.normalize
  simp only [decomposeReferenceConstraint, Kernel.decomposeConstraint, Kernel.normalizeConstraint,
    normalizeReferenceConstraint, ReferenceUniverseConstraint.rename,
    normalizeReferenceLevel_eq left.small, normalizeReferenceLevel_eq right.small,
    renames.keeps.normalizeLevel left.overNames, renames.keeps.normalizeLevel right.overNames,
    renames.levelEq left.normalize.overNames right.normalize.overNames, decide_eq_true_iff]
  cases relation with
  | le => exact forward
  | eq =>
    dsimp only
    split
    next => exact ⟨rfl, by simp⟩
    next =>
      refine matches_bind forward ?_
      rintro first _ _ _ ⟨rfl, firstWithin⟩
      refine matches_bind backward ?_
      rintro second _ _ _ ⟨rfl, secondWithin⟩
      refine ⟨List.map_append.symm, fun inequality mem => ?_⟩
      exact (List.mem_append.mp mem).elim (firstWithin inequality) (secondWithin inequality)

end Decomposition

/-! ### The table -/

section Table

variable {f : ReferenceModuleName → String} {names : Set ReferenceModuleName} {offset : Nat}
  {params : List ReferenceModuleName}

/-- With distinct names, the last entry of a name is its only one. -/
theorem find_zipIdx_reverse (nodup : params.Nodup) (name : ReferenceModuleName) (start : Nat) :
    ((params.zipIdx start).reverse.find? fun entry => entry.1 = name).map (·.2) =
      (params.findIdx? (· = name)).map (· + start) := by
  induction params generalizing start with
  | nil => rfl
  | cons param rest ih =>
    obtain ⟨fresh, nodup⟩ := List.nodup_cons.mp nodup
    have ih := ih nodup (start + 1)
    rw [List.zipIdx_cons, List.reverse_cons, List.find?_append, List.findIdx?_cons]
    by_cases same : param = name
    · subst same
      have absent : rest.findIdx? (· = param) = none := by
        rw [List.findIdx?_eq_none_iff]
        intro other mem
        simp only [decide_eq_false_iff_not]
        rintro rfl
        exact fresh mem
      rw [absent, Option.map_none, Option.map_eq_none_iff] at ih
      simp [ih]
    · have skip : List.find? (fun entry => decide (entry.1 = name)) [(param, start)] = none := by
        simp [same]
      rw [skip, Option.or_none, ih]
      simp only [same, decide_false, Bool.false_eq_true, if_false, Option.map_map]
      congr 1
      funext i
      simp only [Function.comp_apply]
      omega

theorem findIdx_map (renames : Renames f names) (sub : ∀ param ∈ params, param ∈ names)
    {name : ReferenceModuleName} (mem : name ∈ names) :
    (params.map f).findIdx? (· = f name) = params.findIdx? (· = name) := by
  induction params with
  | nil => rfl
  | cons param rest ih =>
    obtain ⟨hparam, sub⟩ := List.forall_mem_cons.mp sub
    have same : f param = f name ↔ param = name :=
      ⟨renames.injOn hparam mem, congrArg f⟩
    rw [List.map_cons, List.findIdx?_cons, List.findIdx?_cons, ih sub]
    simp only [same]

theorem referenceAtomBaseIndex_matches (renames : Renames f names)
    (sub : ∀ param ∈ params, param ∈ names) (nodup : params.Nodup) {base : ReferenceAtomBase}
    (overNames : base.Over names) :
    Matches Eq (referenceAtomBaseIndex offset params base)
      (Kernel.atomBaseIndex (params.map f) (base.rename f)) := by
  cases base with
  | zero => rfl
  | param name =>
    simp only [referenceAtomBaseIndex, referenceUniverseParamIndex, find_zipIdx_reverse nodup,
      ReferenceAtomBase.rename, Kernel.atomBaseIndex, findIdx_map renames sub overNames]
    cases params.findIdx? (· = name) <;> trivial

theorem referenceOffsetBound_matches (atom : ReferenceAtom) :
    Matches Eq (referenceOffsetBound offset atom) (Kernel.offsetBound (atom.rename f)) := by
  have same : (atom.rename f).offset = atom.offset := rfl
  rw [referenceOffsetBound, Kernel.offsetBound, same]
  split <;> trivial

variable (renames : Renames f names) (sub : ∀ param ∈ params, param ∈ names)
  (nodup : params.Nodup)

include renames sub nodup

theorem addReferenceInequality_matches (table : DifferenceBounds.Table)
    {inequality : ReferenceAtomInequality} (within : inequality.Within names) :
    Matches Eq (addReferenceInequality offset params table inequality)
      (Kernel.addInequality (params.map f) table (inequality.rename f)) := by
  refine matches_bind (referenceAtomBaseIndex_matches renames sub nodup within.2.overNames) ?_
  rintro source _ _ _ rfl
  refine matches_bind (referenceAtomBaseIndex_matches renames sub nodup within.1.overNames) ?_
  rintro target _ _ _ rfl
  refine matches_bind (referenceOffsetBound_matches inequality.rhs) ?_
  rintro rhsOffset _ _ _ rfl
  refine matches_bind (referenceOffsetBound_matches inequality.lhs) ?_
  rintro lhsOffset _ _ _ rfl
  rfl

theorem addReferenceConstraint_matches (state : Nat × DifferenceBounds.Table)
    {constraint : ReferenceUniverseConstraint} (h : constraint.Admissible names) :
    Matches Eq (addReferenceConstraint offset params state constraint)
      (Kernel.addConstraint (params.map f) state (constraint.rename f)) := by
  refine matches_bind (decomposeReferenceConstraint_matches renames h) ?_
  rintro inequalities _ _ _ ⟨rfl, within⟩
  rw [List.length_map]
  refine matches_bind (matches_ensure rfl) fun _ _ _ _ _ => ?_
  refine matches_bind (matches_foldEach (fun inequality mem table other same => ?_) rfl) ?_
  · subst same
    exact addReferenceInequality_matches renames sub nodup table (within inequality mem)
  · rintro table _ _ _ rfl
    rfl

end Table

/-! ### Contexts -/

/-- The context of the kernel that stands for one of the reference checker. -/
def ReferenceUniverseContext.rename (f : ReferenceModuleName → String)
    (context : ReferenceUniverseContext) : Kernel.UniverseContext :=
  ⟨context.params.map f, context.constraints.map (ReferenceUniverseConstraint.rename f),
    context.closure⟩

section Contexts

variable {f : ReferenceModuleName → String} {names : Set ReferenceModuleName}

/-- The contexts are both built, with one closed table, or both rejected. -/
theorem new_matches (renames : Renames f names) (offset : Nat)
    (sub : ∀ param ∈ params, param ∈ names) (admissible : ∀ c ∈ constraints, c.Admissible names) :
    Matches (fun context other => other = context.rename f ∧ context.params = params ∧
        context.constraints = constraints ∧ params.Nodup)
      (ReferenceUniverseContext.new offset params constraints)
      (Kernel.UniverseContext.new (params.map f)
        (constraints.map (ReferenceUniverseConstraint.rename f))) := by
  rw [ReferenceUniverseContext.new, Kernel.UniverseContext.new, List.isEmpty_map]
  split
  next empty =>
    obtain rfl := List.isEmpty_iff.mp empty
    refine matches_bind (validateReferenceUniverseParams_matches renames offset sub) ?_
    rintro _ _ _ _ ⟨rfl, nodup⟩
    rw [List.length_map]
    refine matches_bind (matches_ensure rfl) fun _ _ _ _ _ => ?_
    refine matches_bind (matches_ensure rfl) fun _ _ _ _ _ => ?_
    exact ⟨rfl, rfl, rfl, nodup⟩
  next =>
    refine matches_bind (validateReferenceUniverseParams_matches renames offset sub) ?_
    rintro _ _ _ _ ⟨rfl, nodup⟩
    have wf := ensureReferenceUniverseConstraintsWf_matches renames offset sub admissible
    rw [List.length_map, ensureReferenceUniverseNodeLimit, Kernel.ensureUniverseNodeLimit]
    -- the reference checker counts the nodes before it looks at the constraints
    by_cases limit : params.length + 1 ≤ Kernel.maxUniverseContextNodes
    · have passes : ∀ {ε : Type} {e : ε}, Result.ensure (decide (params.length + 1 ≤
          Kernel.maxUniverseContextNodes)) e = .ok () := by
        intro ε e
        rw [decide_eq_true limit]
        rfl
      simp only [passes, Result.ok_bind]
      refine matches_bind wf fun _ _ _ _ _ => ?_
      refine matches_bind (matches_foldEach (fun c hc state other same => ?_) rfl) ?_
      · subst same
        exact addReferenceConstraint_matches renames sub nodup state (admissible c hc)
      · rintro state _ _ _ rfl
        refine matches_bind (matches_ensure rfl) fun _ _ _ _ _ => ?_
        exact ⟨rfl, rfl, rfl, nodup⟩
    · have fails : ∀ {ε : Type} {e : ε}, Result.ensure (decide (params.length + 1 ≤
          Kernel.maxUniverseContextNodes)) e = .error e := by
        intro ε e
        rw [decide_eq_false limit]
        rfl
      simp only [fails, Result.error_bind]
      generalize Kernel.ensureUniverseConstraintsWf _ _ = checked
      cases checked <;> trivial

section Entailment

variable {context : ReferenceUniverseContext} {offset : Nat} (renames : Renames f names)
  (sub : ∀ param ∈ context.params, param ∈ names) (nodup : context.params.Nodup)

include renames sub nodup

theorem someAtomBounds_matches (target : Nat) (lhsOffset : Int) {rhsAtoms : List ReferenceAtom}
    (overNames : ∀ atom ∈ rhsAtoms, atom.base.Over names) :
    Matches Eq (context.someAtomBounds offset target lhsOffset rhsAtoms)
      ((context.rename f).someAtomBounds target lhsOffset
        (rhsAtoms.map (ReferenceAtom.rename f))) := by
  induction rhsAtoms with
  | nil => rfl
  | cons rhsAtom rest ih =>
    obtain ⟨here, overNames⟩ := List.forall_mem_cons.mp overNames
    refine matches_bind (referenceAtomBaseIndex_matches renames sub nodup here) ?_
    rintro source _ _ _ rfl
    refine matches_bind (referenceOffsetBound_matches rhsAtom) ?_
    rintro rhsOffset _ _ _ rfl
    have same : (context.rename f).closureEntails source target (rhsOffset - lhsOffset) =
        context.closureEntails source target (rhsOffset - lhsOffset) := rfl
    rw [same]
    split
    next => rfl
    next => exact ih overNames

theorem everyAtomBounded_matches {lhsAtoms rhsAtoms : List ReferenceAtom}
    (left : ∀ atom ∈ lhsAtoms, atom.base.Over names)
    (right : ∀ atom ∈ rhsAtoms, atom.base.Over names) :
    Matches Eq (context.everyAtomBounded offset rhsAtoms lhsAtoms)
      ((context.rename f).everyAtomBounded (rhsAtoms.map (ReferenceAtom.rename f))
        (lhsAtoms.map (ReferenceAtom.rename f))) := by
  induction lhsAtoms with
  | nil => rfl
  | cons lhsAtom rest ih =>
    obtain ⟨here, left⟩ := List.forall_mem_cons.mp left
    refine matches_bind (referenceAtomBaseIndex_matches renames sub nodup here) ?_
    rintro target _ _ _ rfl
    refine matches_bind (referenceOffsetBound_matches lhsAtom) ?_
    rintro lhsOffset _ _ _ rfl
    refine matches_bind (someAtomBounds_matches renames sub nodup target lhsOffset right) ?_
    rintro witnessed _ _ _ rfl
    split
    next => exact ih left
    next => rfl

theorem entailsAtoms_matches (left : Admissible names lhs)
    (right : Admissible names rhs) (lhsNormal : Normal lhs) (rhsNormal : Normal rhs) :
    Matches Eq (context.entailsAtoms offset lhs rhs)
      ((context.rename f).entailsAtoms (mapNames f lhs) (mapNames f rhs)) := by
  refine matches_bind (decomposeReferenceLhsLevelExpr_matches renames left lhsNormal) ?_
  rintro lhsAtoms _ _ _ ⟨rfl, lhsWithin⟩
  refine matches_bind (decomposeReferenceLevelExpr_matches renames right rhsNormal) ?_
  rintro rhsAtoms _ _ _ ⟨rfl, rhsWithin⟩
  rw [List.length_map, List.length_map]
  refine matches_bind (matches_ensure rfl) fun _ _ _ _ _ => ?_
  exact everyAtomBounded_matches renames sub nodup (fun atom mem => (lhsWithin atom mem).overNames)
    fun atom mem => (rhsWithin atom mem).overNames

theorem entailsLevelLeAt_matches {depth : Nat}
    (left : Admissible names lhs) (right : Admissible names rhs) (deep : lhs.size < depth) :
    Matches Eq (context.entailsLevelLe offset lhs rhs)
      ((context.rename f).entailsLevelLeAt depth (mapNames f lhs) (mapNames f rhs)) := by
  induction depth generalizing lhs rhs with
  | zero => exact absurd deep (Nat.not_lt_zero _)
  | succ depth ih =>
    have lhsNormal : Normal (normalizeLevel lhs) := Level.normalizeLevel_normal lhs
    have rhsNormal : Normal (normalizeLevel rhs) := Level.normalizeLevel_normal rhs
    have atoms : Matches Eq (context.entailsAtoms offset _ _) _ :=
      entailsAtoms_matches renames sub nodup left.normalize right.normalize lhsNormal rhsNormal
    have shrinks := normalizeLevel_size lhs
    rw [ReferenceUniverseContext.entailsLevelLe, Kernel.UniverseContext.entailsLevelLeAt]
    refine matches_bind (ensureLevelWf_matches renames offset sub left.overNames) fun _ _ _ _ _ => ?_
    refine matches_bind (ensureLevelWf_matches renames offset sub right.overNames) fun _ _ _ _ _ => ?_
    simp only [renames.keeps.normalizeLevel left.overNames, renames.keeps.normalizeLevel right.overNames,
      normalizeReferenceLevel_eq left.small, normalizeReferenceLevel_eq right.small,
      renames.levelEq left.normalize.overNames right.normalize.overNames, decide_eq_true_iff]
    split
    next => rfl
    next =>
      have shape := normalizeReferenceLevel_eq left.small
      have normal := left.normalize
      generalize normalizeLevel lhs = lhs' at *
      split
      next imaxLhs imaxRhs same =>
        obtain rfl : lhs' = .imax imaxLhs imaxRhs := shape.symm.trans same
        obtain ⟨imaxLeft, imaxRight⟩ := normal.imax
        simp only [mapNames, renames.levelEq imaxRight.overNames right.normalize.overNames,
          decide_eq_true_iff]
        simp only [Level.size] at shrinks
        split
        next =>
          have one : Admissible names (.succ .zero) := ⟨Level.over_zero, by decide⟩
          refine matches_bind (ih imaxLeft one (by omega)) ?_
          rintro answer _ _ _ rfl
          split
          next => rfl
          next => exact atoms
        next => exact atoms
      next other =>
        rw [shape] at other ⊢
        cases lhs' with
        | imax imaxLhs imaxRhs => exact (other imaxLhs imaxRhs rfl).elim
        | zero | succ _ | max _ _ | param _ => exact atoms

/-- The answers are equal, or both solvers fail. -/
theorem entailsLevelLe_matches (left : Admissible names lhs) (right : Admissible names rhs) :
    Matches Eq (context.entailsLevelLe offset lhs rhs)
      ((context.rename f).entailsLevelLe (mapNames f lhs) (mapNames f rhs)) := by
  rw [Kernel.UniverseContext.entailsLevelLe, Level.mapNames_size]
  exact entailsLevelLeAt_matches renames sub nodup left right (Nat.lt_succ_self _)

end Entailment

end Contexts

end NpaCore.Reference
