import NpaCore.Kernel.Universe

/-!
# Soundness of universe entailment

A closed table is read against valuations of the parameters by natural numbers.
An obligation is safe to strengthen, and `decompose_lhs_level_expr` strengthens
it by reading `imax` as `max`. The same function also decomposes the declared
constraints, where reading `imax` as `max` strengthens an assumption.

## Main result

`entailsLevelLe_sound_iff`: entailment against an accepted context is sound for
all levels exactly when the declared constraints are not strengthened by that
reading.
-/

namespace NpaCore.Kernel

open NpaCore.Level

/-! ### Meaning of constraints -/

def UniverseConstraint.Holds (ρ : String → Nat) (constraint : UniverseConstraint) : Prop :=
  match constraint.relation with
  | .le => constraint.lhs.eval ρ ≤ constraint.rhs.eval ρ
  | .eq => constraint.lhs.eval ρ = constraint.rhs.eval ρ

instance (ρ : String → Nat) (constraint : UniverseConstraint) :
    Decidable (constraint.Holds ρ) :=
  match h : constraint.relation with
  | .le => decidable_of_iff (constraint.lhs.eval ρ ≤ constraint.rhs.eval ρ)
      (by simp [UniverseConstraint.Holds, h])
  | .eq => decidable_of_iff (constraint.lhs.eval ρ = constraint.rhs.eval ρ)
      (by simp [UniverseConstraint.Holds, h])

/-- The valuation satisfies every constraint of the list. -/
def Satisfies (ρ : String → Nat) (constraints : List UniverseConstraint) : Prop :=
  ∀ constraint ∈ constraints, constraint.Holds ρ

/-- Whatever satisfies the declared constraints also satisfies each inequality among
    them, between different sides, when every `imax` on its left is read as `max`. -/
def IMaxHarmless (constraints : List UniverseConstraint) : Prop :=
  ∀ ρ, Satisfies ρ constraints → ∀ constraint ∈ constraints, constraint.relation = .le →
    constraint.lhs ≠ constraint.rhs → constraint.lhs.maxEval ρ ≤ constraint.rhs.eval ρ

/-! ### Atoms -/

def AtomBase.value (ρ : String → Nat) : AtomBase → Nat
  | zero => 0
  | param name => ρ name

def Atom.value (ρ : String → Nat) (atom : Atom) : Nat := atom.base.value ρ + atom.offset

theorem mem_dedupConsecutive {α : Type} [DecidableEq α] {x : α} {xs : List α} :
    x ∈ dedupConsecutive xs ↔ x ∈ xs := by
  fun_induction dedupConsecutive xs with
  | case1 first rest ih => simp [ih]
  | case2 first second rest hne ih => simp [ih]
  | case3 short => rfl

variable {atom : Atom} {atoms : List Atom}

theorem mem_sortDedupAtoms :
    atom ∈ sortDedupAtoms atoms ↔ atom ∈ atoms := by
  rw [sortDedupAtoms, mem_dedupConsecutive, List.mem_insertionSort]

theorem decomposeAtomFrom_value (ρ : String → Nat) {whole level : Level} {offset : Nat}
    (h : decomposeAtomFrom whole offset level = .ok atom) :
    atom.value ρ = offset + level.eval ρ ∧ level.maxEval ρ = level.eval ρ := by
  induction level generalizing offset with
  | zero =>
    cases h
    simp [Atom.value, AtomBase.value, eval, maxEval]
  | succ inner ih =>
    simp only [decomposeAtomFrom] at h
    split at h
    · obtain ⟨value, same⟩ := ih h
      simp only [eval, maxEval]
      omega
    · cases h
  | max lhs rhs => cases h
  | imax lhs rhs => cases h
  | param name =>
    cases h
    simp [Atom.value, AtomBase.value, eval, maxEval, Nat.add_comm]

theorem decomposeAtom_value (ρ : String → Nat) {level : Level}
    (h : decomposeAtom level = .ok atom) :
    atom.value ρ = level.eval ρ ∧ level.maxEval ρ = level.eval ρ := by
  simp only [decomposeAtom, Result.bind_eq_ok, Except.ok.injEq] at h
  obtain ⟨found, hfound, _, _, rfl⟩ := h
  simpa using decomposeAtomFrom_value ρ hfound

/-- The atoms of a level decompose its value: a number bounds the level exactly when it
    bounds every atom. -/
theorem maxAtoms_le_iff (ρ : String → Nat) {level : Level}
    (h : maxAtoms level = .ok atoms) (n : Nat) :
    level.eval ρ ≤ n ↔ ∀ atom ∈ atoms, atom.value ρ ≤ n := by
  induction level generalizing atoms with
  | max lhs rhs ihl ihr =>
    simp only [maxAtoms, Result.bind_eq_ok, Except.ok.injEq] at h
    obtain ⟨left, hleft, right, hright, rfl⟩ := h
    simp only [eval, Nat.max_le, ihl hleft, ihr hright, List.mem_append, or_imp, forall_and]
  | zero | succ _ _ | imax _ _ _ _ | param _ =>
    simp only [maxAtoms, Result.bind_eq_ok, Except.ok.injEq] at h
    obtain ⟨atom, hatom, rfl⟩ := h
    simp [(decomposeAtom_value ρ hatom).1]

theorem lhsAtoms_le_iff (ρ : String → Nat) {level : Level}
    (h : lhsAtoms level = .ok atoms) (n : Nat) :
    level.maxEval ρ ≤ n ↔ ∀ atom ∈ atoms, atom.value ρ ≤ n := by
  induction level generalizing atoms with
  | max lhs rhs ihl ihr | imax lhs rhs ihl ihr =>
    simp only [lhsAtoms, Result.bind_eq_ok, Except.ok.injEq] at h
    obtain ⟨left, hleft, right, hright, rfl⟩ := h
    simp only [maxEval, Nat.max_le, ihl hleft, ihr hright, List.mem_append, or_imp, forall_and]
  | zero | succ _ _ | param _ =>
    simp only [lhsAtoms, Result.bind_eq_ok, Except.ok.injEq] at h
    obtain ⟨atom, hatom, rfl⟩ := h
    obtain ⟨value, same⟩ := decomposeAtom_value ρ hatom
    simp [value, same]

theorem decomposeLevelExpr_le_iff (ρ : String → Nat) {level : Level}
    (h : decomposeLevelExpr level = .ok atoms) (n : Nat) :
    level.eval ρ ≤ n ↔ ∀ atom ∈ atoms, atom.value ρ ≤ n := by
  simp only [decomposeLevelExpr, Result.bind_eq_ok, Except.ok.injEq] at h
  obtain ⟨found, hfound, rfl⟩ := h
  simp only [mem_sortDedupAtoms, ← maxAtoms_le_iff ρ hfound, normalizeLevel_eval]

theorem decomposeLhsLevelExpr_le_iff (ρ : String → Nat) {level : Level}
    (h : decomposeLhsLevelExpr level = .ok atoms) (n : Nat) :
    (normalizeLevel level).maxEval ρ ≤ n ↔ ∀ atom ∈ atoms, atom.value ρ ≤ n := by
  simp only [decomposeLhsLevelExpr, Result.bind_eq_ok, Except.ok.injEq] at h
  obtain ⟨found, hfound, rfl⟩ := h
  simp only [mem_sortDedupAtoms, ← lhsAtoms_le_iff ρ hfound]

/-- What decomposes on the right of `<=` has no `imax`. -/
theorem maxAtoms_maxEval (ρ : String → Nat) {level : Level}
    (h : maxAtoms level = .ok atoms) : level.maxEval ρ = level.eval ρ := by
  induction level generalizing atoms with
  | max lhs rhs ihl ihr =>
    simp only [maxAtoms, Result.bind_eq_ok] at h
    obtain ⟨left, hleft, right, hright, _⟩ := h
    simp only [maxEval, eval, ihl hleft, ihr hright]
  | zero | succ _ _ | imax _ _ _ _ | param _ =>
    simp only [maxAtoms, Result.bind_eq_ok] at h
    obtain ⟨atom, hatom, _⟩ := h
    exact (decomposeAtom_value ρ hatom).2

/-! ### Decomposed constraints -/

def AtomInequality.Holds (ρ : String → Nat) (inequality : AtomInequality) : Prop :=
  inequality.lhs.value ρ ≤ inequality.rhs.value ρ

/-- What the table assumes of a declared constraint. -/
def UniverseConstraint.Assumed (ρ : String → Nat) (constraint : UniverseConstraint) : Prop :=
  match constraint.relation with
  | .le => constraint.lhs = constraint.rhs ∨ constraint.lhs.maxEval ρ ≤ constraint.rhs.eval ρ
  | .eq => constraint.lhs.eval ρ = constraint.rhs.eval ρ

variable {lhs rhs : Level}

theorem decomposeLeConstraint_spec {inequalities : List AtomInequality}
    (hlhs : normalizeLevel lhs = lhs) (hrhs : normalizeLevel rhs = rhs)
    (h : decomposeLeConstraint lhs rhs = .ok inequalities) :
    (lhs = rhs ∧ inequalities = []) ∨
      (lhs ≠ rhs ∧ ∀ ρ, rhs.maxEval ρ = rhs.eval ρ ∧
        ((∀ inequality ∈ inequalities, inequality.Holds ρ) ↔ lhs.maxEval ρ ≤ rhs.eval ρ)) := by
  simp only [decomposeLeConstraint, hlhs, hrhs] at h
  split at h
  next heq =>
    cases h
    exact .inl ⟨levelEqStackSafe_iff.mp heq, rfl⟩
  next hne =>
    right
    refine ⟨fun e => hne (levelEqStackSafe_iff.mpr e), fun ρ => ?_⟩
    simp only [Result.bind_eq_ok] at h
    obtain ⟨left, hleft, right, hright, h⟩ := h
    split at h
    next rhsAtom =>
      cases h
      have rhsBound := decomposeLevelExpr_le_iff ρ hright
      have rhsValue : rhs.eval ρ = rhsAtom.value ρ := by
        have upper := (rhsBound (rhsAtom.value ρ)).mpr (by simp)
        have lower := (rhsBound (rhs.eval ρ)).mp (Nat.le_refl _) rhsAtom (by simp)
        omega
      have lhsBound := decomposeLhsLevelExpr_le_iff ρ hleft (rhs.eval ρ)
      rw [hlhs] at lhsBound
      simp only [decomposeLevelExpr, hrhs, Result.bind_eq_ok] at hright
      obtain ⟨found, hfound, _⟩ := hright
      refine ⟨maxAtoms_maxEval ρ hfound, ?_⟩
      rw [lhsBound]
      simp [AtomInequality.Holds, rhsValue]
    next => cases h

/-- The inequalities a declared constraint contributes are what the table assumes of it. -/
theorem decomposeConstraint_spec {constraint : UniverseConstraint}
    {inequalities : List AtomInequality}
    (hlhs : normalizeLevel constraint.lhs = constraint.lhs)
    (hrhs : normalizeLevel constraint.rhs = constraint.rhs)
    (h : decomposeConstraint constraint = .ok inequalities) (ρ : String → Nat) :
    (∀ inequality ∈ inequalities, inequality.Holds ρ) ↔ constraint.Assumed ρ := by
  obtain ⟨lhs, relation, rhs⟩ := constraint
  change normalizeLevel lhs = lhs at hlhs
  change normalizeLevel rhs = rhs at hrhs
  simp only [decomposeConstraint, normalizeConstraint, hlhs, hrhs] at h
  cases relation with
  | le =>
    rcases decomposeLeConstraint_spec hlhs hrhs h with ⟨same, rfl⟩ | ⟨differ, spec⟩
    · simp [UniverseConstraint.Assumed, same]
    · simp [UniverseConstraint.Assumed, differ, (spec ρ).2]
  | eq =>
    simp only at h
    split at h
    next heq =>
      cases h
      simp [UniverseConstraint.Assumed, levelEqStackSafe_iff.mp heq]
    next hne =>
      have differ : lhs ≠ rhs := fun e => hne (levelEqStackSafe_iff.mpr e)
      simp only [Result.bind_eq_ok, Except.ok.injEq] at h
      obtain ⟨forward, hforward, backward, hbackward, rfl⟩ := h
      rcases decomposeLeConstraint_spec hlhs hrhs hforward with ⟨same, _⟩ | ⟨_, there⟩
      · exact absurd same differ
      rcases decomposeLeConstraint_spec hrhs hlhs hbackward with ⟨same, _⟩ | ⟨_, back⟩
      · exact absurd same.symm differ
      -- both sides stand on the right of an inequality, so neither has an `imax`
      obtain ⟨rhsPlain, hthere⟩ := there ρ
      obtain ⟨lhsPlain, hback⟩ := back ρ
      simp only [List.mem_append, or_imp, forall_and, hthere, hback, UniverseConstraint.Assumed]
      omega

/-! ### The table of a context -/

/-- The value of a node of the table: zero, or the parameter with that number. -/
def nodeValue (params : List String) (ρ : String → Nat) : Nat → Int
  | 0 => 0
  | i + 1 => ((params[i]?).map ρ).getD 0

theorem nodeValue_nonneg (params : List String) (ρ : String → Nat) (i : Nat) :
    0 ≤ nodeValue params ρ i := by
  cases i with
  | zero => exact Int.le_refl _
  | succ i => exact Int.natCast_nonneg _

variable {params : List String}

theorem atomBaseIndex_spec {base : AtomBase} {i : Nat} (h : atomBaseIndex params base = .ok i) :
    i < params.length + 1 ∧ ∀ ρ, nodeValue params ρ i = base.value ρ := by
  cases base with
  | zero =>
    cases h
    exact ⟨Nat.succ_pos _, fun ρ => rfl⟩
  | param name =>
    simp only [atomBaseIndex] at h
    cases hidx : params.findIdx? (· = name) with
    | none => simp [hidx, Result.okOr, Except.map] at h
    | some idx =>
      have hi : idx + 1 = i := by simpa [hidx, Result.okOr, Except.map] using h
      subst hi
      obtain ⟨hlt, hname, _⟩ := List.findIdx?_eq_some_iff_getElem.mp hidx
      refine ⟨Nat.succ_lt_succ hlt, fun ρ => ?_⟩
      simp only [decide_eq_true_eq] at hname
      simp [nodeValue, AtomBase.value, hlt, hname]

theorem offsetBound_eq {n : Int} (h : offsetBound atom = .ok n) :
    n = atom.offset := by
  simp only [offsetBound] at h
  split at h
  · cases h; rfl
  · cases h

theorem offsetBound_lt {n : Int} (h : offsetBound atom = .ok n) :
    atom.offset < 2 ^ 63 := by
  simp only [offsetBound] at h
  split at h
  next small => exact small
  next => cases h

theorem withLowerBounds_square (paramCount : Nat) :
    DifferenceBounds.Square (paramCount + 1) (withLowerBounds paramCount) := by
  constructor
  · simp [withLowerBounds]
  · intro row hrow
    simp only [withLowerBounds, List.mem_map] at hrow
    obtain ⟨i, _, rfl⟩ := hrow
    simp

theorem get_withLowerBounds (paramCount i j : Nat) :
    DifferenceBounds.get (withLowerBounds paramCount) i j =
      if i < paramCount + 1 ∧ j < paramCount + 1 ∧ (i = j ∨ j = 0) then some 0 else none := by
  by_cases hi : i < paramCount + 1
  · by_cases hj : j < paramCount + 1
    · simp only [DifferenceBounds.get, withLowerBounds, List.getElem?_map, List.getElem?_range hi,
        Option.map_some, Option.bind_some, List.getElem?_range hj, Option.join_some]
      split
      next same => simp [same, hj]
      next differ =>
        by_cases zero : j = 0
        · simp [zero, hi]
        · simp [zero, differ]
    · simp [DifferenceBounds.get, withLowerBounds, hi, hj]
  · simp [DifferenceBounds.get, withLowerBounds, hi]

theorem withLowerBounds_sat (params : List String) (ρ : String → Nat) :
    DifferenceBounds.Sat (nodeValue params ρ) (withLowerBounds params.length) := by
  intro i j w h
  have nonneg := nodeValue_nonneg params ρ i
  rw [get_withLowerBounds] at h
  split at h
  next inside =>
    cases h
    rcases inside.2.2 with rfl | rfl
    · omega
    · simpa [nodeValue] using nonneg
  next => cases h

/-- The largest weight of an edge: offsets are below `2 ^ 63`. -/
def weightLimit : Int := 2 ^ 63 - 1

theorem withLowerBounds_within (paramCount : Nat) :
    DifferenceBounds.Within weightLimit (withLowerBounds paramCount) := by
  intro i j w h
  rw [get_withLowerBounds] at h
  split at h
  next =>
    cases h
    decide
  next => cases h

theorem withLowerBounds_grounded (paramCount : Nat) :
    DifferenceBounds.Grounded (withLowerBounds paramCount) := by
  intro i hi
  rw [(withLowerBounds_square paramCount).1] at hi
  constructor
  · exact ⟨0, Int.le_refl 0, by simp [get_withLowerBounds, hi]⟩
  · exact ⟨0, Int.le_refl 0, by simp [get_withLowerBounds, hi]⟩

theorem addI128_exact {a b : Int} (lower : -(2 ^ 127 - 1) ≤ a + b) (upper : a + b ≤ 2 ^ 127 - 1) :
    addI128 a b = a + b :=
  Int.bmod_eq_of_le_mul_two (by omega) (by omega)

/-- The table has an edge at least as tight as the inequality. -/
def Recorded (params : List String) (table : DifferenceBounds.Table)
    (inequality : AtomInequality) : Prop :=
  ∃ source target bound, atomBaseIndex params inequality.rhs.base = .ok source ∧
    atomBaseIndex params inequality.lhs.base = .ok target ∧
    offsetBound inequality.rhs = .ok inequality.rhs.offset ∧
    offsetBound inequality.lhs = .ok inequality.lhs.offset ∧
    DifferenceBounds.get table source target = some bound ∧
    bound ≤ (inequality.rhs.offset : Int) - inequality.lhs.offset

variable {inequality : AtomInequality}

theorem Recorded.mono {table tighter : DifferenceBounds.Table}
    (ht : DifferenceBounds.Tightens table tighter)
    (h : Recorded params table inequality) : Recorded params tighter inequality := by
  obtain ⟨source, target, bound, hsource, htarget, hrhs, hlhs, hget, hle⟩ := h
  obtain ⟨lower, hlower, hbound⟩ := ht source target bound hget
  exact ⟨source, target, lower, hsource, htarget, hrhs, hlhs, hlower, Int.le_trans hbound hle⟩

/-- What adding edges to a table of side `n` keeps: its shape, its bounds up to
    tightening, and every valuation under which the added inequalities hold. -/
structure Extends (params : List String) (table next : DifferenceBounds.Table)
    (added : List AtomInequality) : Prop where
  square : DifferenceBounds.Square (params.length + 1) table →
    DifferenceBounds.Square (params.length + 1) next
  tightens : DifferenceBounds.Tightens table next
  recorded : DifferenceBounds.Square (params.length + 1) table →
    ∀ inequality ∈ added, Recorded params next inequality
  within : DifferenceBounds.Within weightLimit table → DifferenceBounds.Within weightLimit next
  sat : ∀ ρ, (∀ inequality ∈ added, inequality.Holds ρ) →
    DifferenceBounds.Sat (nodeValue params ρ) table →
    DifferenceBounds.Sat (nodeValue params ρ) next

theorem Extends.refl (params : List String) (table : DifferenceBounds.Table) :
    Extends params table table [] where
  square h := h
  tightens := .refl table
  recorded _ _ h := by cases h
  within h := h
  sat _ _ h := h

theorem Extends.trans {a b c : DifferenceBounds.Table}
    {first second : List AtomInequality} (hab : Extends params a b first)
    (hbc : Extends params b c second) : Extends params a c (first ++ second) where
  square h := hbc.square (hab.square h)
  tightens := hab.tightens.trans hbc.tightens
  recorded h inequality hmem := by
    rcases List.mem_append.mp hmem with hmem | hmem
    · exact (hab.recorded h inequality hmem).mono hbc.tightens
    · exact hbc.recorded (hab.square h) inequality hmem
  within h := hbc.within (hab.within h)
  sat ρ hall h :=
    hbc.sat ρ (fun q hq => hall q (List.mem_append_right _ hq))
      (hab.sat ρ (fun q hq => hall q (List.mem_append_left _ hq)) h)

theorem addInequality_extends {table next : DifferenceBounds.Table}
    (h : addInequality params table inequality = .ok next) :
    Extends params table next [inequality] := by
  simp only [addInequality, Result.bind_eq_ok, Except.ok.injEq] at h
  obtain ⟨source, hsource, target, htarget, rhsOffset, hrhs, lhsOffset, hlhs, rfl⟩ := h
  obtain ⟨sourceLt, sourceValue⟩ := atomBaseIndex_spec hsource
  obtain ⟨targetLt, targetValue⟩ := atomBaseIndex_spec htarget
  obtain rfl := offsetBound_eq hrhs
  obtain rfl := offsetBound_eq hlhs
  refine ⟨fun hsq => DifferenceBounds.addEdge_square hsq _ _ _,
    DifferenceBounds.addEdge_tightens _ _ _ _, ?_, ?_, ?_⟩
  · intro hsq q hq
    rw [List.mem_singleton.mp hq]
    obtain ⟨bound, hget, hle⟩ := DifferenceBounds.get_addEdge_self hsq sourceLt targetLt _
    exact ⟨source, target, bound, hsource, htarget, hrhs, hlhs, hget, hle⟩
  · intro hwithin
    have rhsSmall := offsetBound_lt hrhs
    have lhsSmall := offsetBound_lt hlhs
    apply DifferenceBounds.addEdge_within hwithin
    · simp only [weightLimit]; omega
    · simp only [weightLimit]; omega
  · intro ρ hall hsat
    have holds := hall inequality (by simp)
    apply DifferenceBounds.addEdge_sat hsat
    rw [sourceValue ρ, targetValue ρ]
    simp only [AtomInequality.Holds, Atom.value] at holds
    omega

theorem addInequalities_extends (inequalities : List AtomInequality)
    {table next : DifferenceBounds.Table}
    (h : Result.foldEach inequalities table (addInequality params) = .ok next) :
    Extends params table next inequalities := by
  induction inequalities generalizing table with
  | nil =>
    cases h
    exact .refl params _
  | cons first rest ih =>
    simp only [Result.foldEach, Result.bind_eq_ok] at h
    obtain ⟨middle, hfirst, hrest⟩ := h
    exact (addInequality_extends hfirst).trans (ih hrest)

/-- The inequalities of a list of constraints, in order. -/
inductive Decomposes : List UniverseConstraint → List AtomInequality → Prop
  | nil : Decomposes [] []
  | cons {constraint constraints first rest} (hfirst : decomposeConstraint constraint = .ok first)
      (hrest : Decomposes constraints rest) : Decomposes (constraint :: constraints) (first ++ rest)

theorem addConstraints_extends (constraints : List UniverseConstraint)
    {state next : Nat × DifferenceBounds.Table}
    (h : Result.foldEach constraints state (addConstraint params) = .ok next) :
    ∃ added, Decomposes constraints added ∧ Extends params state.2 next.2 added := by
  induction constraints generalizing state with
  | nil =>
    cases h
    exact ⟨[], .nil, .refl params _⟩
  | cons constraint rest ih =>
    simp only [Result.foldEach, addConstraint, Result.bind_eq_ok, Except.ok.injEq] at h
    obtain ⟨middle, ⟨first, hfirst, _, _, table, htable, rfl⟩, hrest⟩ := h
    obtain ⟨others, hothers, hextends⟩ := ih hrest
    exact ⟨first ++ others, .cons hfirst hothers,
      (addInequalities_extends first htable).trans hextends⟩

variable {constraints : List UniverseConstraint} {added : List AtomInequality}

theorem Decomposes.of_mem (h : Decomposes constraints added) {constraint : UniverseConstraint}
    (hmem : constraint ∈ constraints) :
    ∃ inequalities, decomposeConstraint constraint = .ok inequalities ∧
      ∀ inequality ∈ inequalities, inequality ∈ added := by
  induction h with
  | nil => cases hmem
  | @cons c cs first rest hfirst hrest ih =>
    rcases List.mem_cons.mp hmem with rfl | hmem
    · exact ⟨first, hfirst, fun q hq => List.mem_append_left _ hq⟩
    · obtain ⟨inequalities, hdec, hsub⟩ := ih hmem
      exact ⟨inequalities, hdec, fun q hq => List.mem_append_right _ (hsub q hq)⟩

theorem Decomposes.holds_iff (h : Decomposes constraints added)
    (canonical : ∀ c ∈ constraints, normalizeLevel c.lhs = c.lhs ∧ normalizeLevel c.rhs = c.rhs)
    (ρ : String → Nat) :
    (∀ inequality ∈ added, inequality.Holds ρ) ↔ ∀ c ∈ constraints, c.Assumed ρ := by
  induction h with
  | nil => simp
  | @cons c cs first rest hfirst hrest ih =>
    have head := canonical c (by simp)
    have tail := ih fun d hd => canonical d (List.mem_cons_of_mem _ hd)
    simp only [List.mem_append, or_imp, forall_and, List.forall_mem_cons, tail,
      decomposeConstraint_spec head.1 head.2 hfirst ρ]

/-! ### Accepted contexts -/

theorem checkUniverseParams_spec {params seen : List String}
    (h : checkUniverseParams seen params = .ok ()) :
    ∀ name ∈ params, isUnresolvedUniverseMetaParam name = false := by
  induction params generalizing seen with
  | nil => simp
  | cons first rest ih =>
    simp only [checkUniverseParams, Result.bind_eq_ok, Result.ensure_eq_ok] at h
    obtain ⟨_, hfirst, _, _, hrest⟩ := h
    intro name hname
    rcases List.mem_cons.mp hname with rfl | hname
    · simpa using hfirst
    · exact ih hrest name hname

theorem validateUniverseParams_spec {params validated : List String}
    (h : validateUniverseParams params = .ok validated) :
    validated = params ∧ ∀ name ∈ params, isUnresolvedUniverseMetaParam name = false := by
  simp only [validateUniverseParams, Result.bind_eq_ok, Except.ok.injEq] at h
  obtain ⟨_, hparams, _, _, rfl⟩ := h
  exact ⟨rfl, checkUniverseParams_spec hparams⟩

theorem ensureUniverseConstraintsWf_canonical {delta : List String}
    (h : ensureUniverseConstraintsWf delta constraints = .ok ()) :
    ∀ c ∈ constraints, normalizeLevel c.lhs = c.lhs ∧ normalizeLevel c.rhs = c.rhs := by
  simp only [ensureUniverseConstraintsWf, Result.bind_eq_ok, Result.forEach_eq_ok,
    ensureCanonicalLevel, Result.ensure_eq_ok, levelEqStackSafe_iff] at h
  obtain ⟨_, each, _⟩ := h
  intro c hc
  obtain ⟨_, ⟨_, _, hlhs⟩, _, _, hrhs⟩ := each c hc
  exact ⟨hlhs, hrhs⟩

/-- What an accepted context stands for: canonical constraints, and a closed table that
    records their inequalities and follows from them. -/
structure Accepted (params : List String) (constraints : List UniverseConstraint)
    (context : UniverseContext) (added : List AtomInequality) : Prop where
  params_eq : context.params = params
  constraints_eq : context.constraints = constraints
  resolved : ∀ name ∈ params, isUnresolvedUniverseMetaParam name = false
  canonical : ∀ c ∈ constraints, normalizeLevel c.lhs = c.lhs ∧ normalizeLevel c.rhs = c.rhs
  decomposes : Decomposes constraints added
  recorded : ∀ inequality ∈ added, Recorded params context.closure inequality
  sat : ∀ ρ, (∀ inequality ∈ added, inequality.Holds ρ) →
    DifferenceBounds.Sat (nodeValue params ρ) context.closure

variable {context : UniverseContext}

theorem fromParams_accepted
    (h : UniverseContext.fromParams params = .ok context) : Accepted params [] context [] := by
  simp only [UniverseContext.fromParams, Result.bind_eq_ok, Except.ok.injEq] at h
  obtain ⟨validated, hvalid, _, _, _, _, rfl⟩ := h
  obtain ⟨rfl, resolved⟩ := validateUniverseParams_spec hvalid
  exact ⟨rfl, rfl, resolved, by simp, .nil, by simp, fun ρ _ => withLowerBounds_sat _ ρ⟩

variable {ρ : String → Nat}

/-- Closing does not overflow while some valuation satisfies the table, since it has at
    most `maxUniverseContextNodes` nodes. -/
theorem close_table_sat {table : DifferenceBounds.Table}
    (hnodes : ensureUniverseNodeLimit params.length = .ok ())
    (hextends : Extends params (withLowerBounds params.length) table added)
    (hsat : DifferenceBounds.Sat (nodeValue params ρ) table) :
    DifferenceBounds.Sat (nodeValue params ρ) (DifferenceBounds.close addI128 table) := by
  have square := withLowerBounds_square params.length
  have length : table.length = params.length + 1 := (hextends.square square).1
  have few : params.length ≤ 64 := by
    rw [ensureUniverseNodeLimit, Result.ensure_eq_ok] at hnodes
    exact Nat.le_of_succ_le_succ (of_decide_eq_true hnodes)
  have grounded := (withLowerBounds_grounded params.length).mono hextends.tightens
    (length.trans square.1.symm)
  refine DifferenceBounds.close_sat (fun a b => addI128_exact) (nodeValue_nonneg params ρ) rfl
    grounded hsat (hextends.within (withLowerBounds_within _)) ?_
  rw [length, Nat.add_sub_cancel]
  calc weightLimit * 2 ^ params.length ≤ weightLimit * 2 ^ 64 :=
        Int.mul_le_mul_of_nonneg_left (pow_le_pow_right₀ (by decide) few) (by decide)
    _ ≤ 2 ^ 127 - 1 := by decide

theorem new_accepted (h : UniverseContext.new params constraints = .ok context) :
    ∃ added, Accepted params constraints context added := by
  rw [UniverseContext.new] at h
  split at h
  next hempty =>
    rw [List.isEmpty_iff.mp hempty]
    exact ⟨[], fromParams_accepted h⟩
  next =>
    simp only [Result.bind_eq_ok, Except.ok.injEq] at h
    obtain ⟨validated, hvalid, _, hwf, _, hnodes, ⟨_, table⟩, htable, _, _, rfl⟩ := h
    obtain ⟨rfl, resolved⟩ := validateUniverseParams_spec hvalid
    obtain ⟨added, hadded, hextends⟩ := addConstraints_extends constraints htable
    refine ⟨added, rfl, rfl, resolved, ensureUniverseConstraintsWf_canonical hwf, hadded, ?_, ?_⟩
    · intro inequality hmem
      have edge := hextends.recorded (withLowerBounds_square _) inequality hmem
      exact edge.mono (DifferenceBounds.close_tightens addI128 table)
    · intro ρ hall
      exact close_table_sat hnodes hextends (hextends.sat ρ hall (withLowerBounds_sat _ ρ))

/-! ### Soundness against the table -/

theorem someAtomBounds_sound
    (hsat : DifferenceBounds.Sat (nodeValue context.params ρ) context.closure)
    {target : Nat} (htarget : atomBaseIndex context.params atom.base = .ok target)
    {rhsAtoms : List Atom} (h : context.someAtomBounds target atom.offset rhsAtoms = .ok true) :
    ∃ rhsAtom ∈ rhsAtoms, atom.value ρ ≤ rhsAtom.value ρ := by
  induction rhsAtoms with
  | nil => cases h
  | cons first rest ih =>
    simp only [UniverseContext.someAtomBounds, Result.bind_eq_ok] at h
    obtain ⟨source, hsource, offset, hoffset, h⟩ := h
    obtain rfl := offsetBound_eq hoffset
    split at h
    next entailed =>
      simp only [UniverseContext.closureEntails] at entailed
      split at entailed
      next => cases entailed
      next actual hget =>
        have edge := hsat source target actual hget
        rw [(atomBaseIndex_spec hsource).2 ρ, (atomBaseIndex_spec htarget).2 ρ] at edge
        have bound : actual ≤ (first.offset : Int) - atom.offset := by simpa using entailed
        refine ⟨first, by simp, ?_⟩
        simp only [Atom.value]
        omega
    next =>
      obtain ⟨rhsAtom, hmem, hle⟩ := ih h
      exact ⟨rhsAtom, List.mem_cons_of_mem _ hmem, hle⟩

theorem everyAtomBounded_sound
    (hsat : DifferenceBounds.Sat (nodeValue context.params ρ) context.closure)
    {rhsAtoms lhsAtoms : List Atom} (h : context.everyAtomBounded rhsAtoms lhsAtoms = .ok true) :
    ∀ atom ∈ lhsAtoms, ∃ rhsAtom ∈ rhsAtoms, atom.value ρ ≤ rhsAtom.value ρ := by
  induction lhsAtoms with
  | nil => simp
  | cons first rest ih =>
    simp only [UniverseContext.everyAtomBounded, Result.bind_eq_ok] at h
    obtain ⟨target, htarget, offset, hoffset, witnessed, hfound, h⟩ := h
    obtain rfl := offsetBound_eq hoffset
    split at h
    next found =>
      subst found
      intro atom hatom
      rcases List.mem_cons.mp hatom with rfl | hatom
      · exact someAtomBounds_sound hsat htarget hfound
      · exact ih h atom hatom
    next => cases h

theorem entailsAtoms_sound
    (hsat : DifferenceBounds.Sat (nodeValue context.params ρ) context.closure)
    (h : context.entailsAtoms lhs rhs = .ok true) :
    lhs.eval ρ ≤ rhs.eval ρ := by
  simp only [UniverseContext.entailsAtoms, Result.bind_eq_ok] at h
  obtain ⟨lhsAtoms, hlhs, rhsAtoms, hrhs, _, _, hall⟩ := h
  have bounded := everyAtomBounded_sound hsat hall
  have rhsLe := (decomposeLevelExpr_le_iff ρ hrhs (rhs.eval ρ)).mp (Nat.le_refl _)
  have strong : (normalizeLevel lhs).maxEval ρ ≤ rhs.eval ρ := by
    rw [decomposeLhsLevelExpr_le_iff ρ hlhs]
    intro atom hatom
    obtain ⟨rhsAtom, hmem, hle⟩ := bounded atom hatom
    exact Nat.le_trans hle (rhsLe rhsAtom hmem)
  calc lhs.eval ρ = (normalizeLevel lhs).eval ρ := (normalizeLevel_eval ρ lhs).symm
    _ ≤ (normalizeLevel lhs).maxEval ρ := eval_le_maxEval ρ _
    _ ≤ rhs.eval ρ := strong

theorem eval_imax_le_right (h : lhs.eval ρ ≤ 1) :
    (Level.imax lhs rhs).eval ρ ≤ rhs.eval ρ := by
  simp only [eval]
  split <;> omega

theorem entailsLevelLeAt_sound
    (hsat : DifferenceBounds.Sat (nodeValue context.params ρ) context.closure) {depth : Nat}
    (h : context.entailsLevelLeAt depth lhs rhs = .ok true) : lhs.eval ρ ≤ rhs.eval ρ := by
  induction depth generalizing lhs rhs with
  | zero => cases h
  | succ depth ih =>
    simp only [UniverseContext.entailsLevelLeAt, Result.bind_eq_ok] at h
    obtain ⟨_, _, _, _, h⟩ := h
    rw [← normalizeLevel_eval ρ lhs, ← normalizeLevel_eval ρ rhs]
    generalize normalizeLevel lhs = lhs at h ⊢
    generalize normalizeLevel rhs = rhs at h ⊢
    split at h
    next same => rw [levelEqStackSafe_iff.mp same]
    next =>
      split at h
      next imaxLhs imaxRhs =>
        split at h
        next same =>
          simp only [Result.bind_eq_ok] at h
          obtain ⟨small, hsmall, h⟩ := h
          split at h
          next atMostOne =>
            subst atMostOne
            rw [← levelEqStackSafe_iff.mp same]
            exact eval_imax_le_right (ih hsmall)
          next => exact entailsAtoms_sound hsat h
        next => exact entailsAtoms_sound hsat h
      next => exact entailsAtoms_sound hsat h

/-- The depth never runs out: more of it than the left level's size changes nothing. -/
theorem entailsLevelLeAt_depth (context : UniverseContext) {depth : Nat} (h : lhs.size < depth) :
    context.entailsLevelLeAt depth lhs rhs = context.entailsLevelLe lhs rhs := by
  suffices stable : ∀ n d lhs rhs, Level.size lhs < n → lhs.size < d →
      context.entailsLevelLeAt d lhs rhs = context.entailsLevelLeAt n lhs rhs from
    stable _ _ _ _ (Nat.lt_succ_self _) h
  intro n
  induction n with
  | zero => intro d lhs rhs hn; omega
  | succ n ih =>
    intro d lhs rhs hn hd
    obtain ⟨d, rfl⟩ : ∃ k, d = k + 1 := ⟨d - 1, by omega⟩
    simp only [UniverseContext.entailsLevelLeAt]
    have shrinks := normalizeLevel_size lhs
    generalize hnormal : normalizeLevel lhs = normal at shrinks
    cases normal with
    | imax imaxLhs imaxRhs =>
      simp only [Level.size] at shrinks
      have smaller := ih d imaxLhs (.succ .zero) (by omega) (by omega)
      simp only [smaller]
    | zero | succ _ | max _ _ | param _ => rfl

theorem entailsLevelLe_sound (accepted : Accepted params constraints context added)
    (assumed : ∀ c ∈ constraints, c.Assumed ρ)
    (h : context.entailsLevelLe lhs rhs = .ok true) : lhs.eval ρ ≤ rhs.eval ρ := by
  have holds := (accepted.decomposes.holds_iff accepted.canonical ρ).mpr assumed
  have hsat := accepted.sat ρ holds
  rw [← accepted.params_eq] at hsat
  exact entailsLevelLeAt_sound hsat h

/-! ### What the table has recorded is entailed -/

/-- The level an atom denotes. -/
def Atom.level (atom : Atom) : Level :=
  let base := match atom.base with
    | .zero => .zero
    | .param name => .param name
  Nat.repeat .succ atom.offset base

theorem Atom.level_eval (ρ : String → Nat) (atom : Atom) : atom.level.eval ρ = atom.value ρ := by
  obtain ⟨base, offset⟩ := atom
  simp only [Atom.level, Atom.value]
  induction offset with
  | zero => cases base <;> rfl
  | succ offset ih => simp only [Nat.repeat, eval, ih]; omega

theorem Atom.level_normal (atom : Atom) : normalizeLevel atom.level = atom.level := by
  obtain ⟨base, offset⟩ := atom
  simp only [Atom.level]
  induction offset with
  | zero => cases base <;> rfl
  | succ offset ih => simp only [Nat.repeat, normalizeLevel, ih]

theorem Atom.level_wf {i : Nat}
    (resolved : ∀ name ∈ params, isUnresolvedUniverseMetaParam name = false)
    (h : atomBaseIndex params atom.base = .ok i) : ensureLevelWf params atom.level = .ok () := by
  obtain ⟨base, offset⟩ := atom
  simp only [Atom.level]
  induction offset with
  | zero =>
    cases base with
    | zero => rfl
    | param name =>
      have known : name ∈ params := by
        cases hidx : params.findIdx? (· = name) with
        | none => simp [atomBaseIndex, hidx, Result.okOr, Except.map] at h
        | some idx =>
          obtain ⟨hlt, hname, _⟩ := List.findIdx?_eq_some_iff_getElem.mp hidx
          simp only [decide_eq_true_eq] at hname
          exact hname ▸ List.getElem_mem hlt
      simp only [Nat.repeat, ensureLevelWf, Result.bind_eq_ok, Result.ensure_eq_ok,
        resolved name known]
      exact ⟨(), rfl, by simpa using known⟩
  | succ offset ih => simpa only [Nat.repeat, ensureLevelWf] using ih h

theorem decomposeAtomFrom_repeat (whole base : Level) {start offset : Nat}
    (h : start + offset < 2 ^ 64) :
    decomposeAtomFrom whole start (Nat.repeat .succ offset base) =
      decomposeAtomFrom whole (start + offset) base := by
  induction offset generalizing start with
  | zero => rfl
  | succ offset ih =>
    rw [Nat.repeat, decomposeAtomFrom, if_pos (by omega), ih (by omega)]
    congr 1
    omega

theorem decomposeAtom_level {n : Int} (h : offsetBound atom = .ok n) :
    decomposeAtom atom.level = .ok atom := by
  have small := offsetBound_lt h
  obtain ⟨base, offset⟩ := atom
  have walk : ∀ whole, decomposeAtomFrom whole 0 (Atom.level ⟨base, offset⟩) =
      .ok ⟨base, offset⟩ := by
    intro whole
    simp only [Atom.level]
    rw [decomposeAtomFrom_repeat _ _ (by simp at small; omega), Nat.zero_add]
    cases base <;> rfl
  simp only [decomposeAtom, walk, bind, Except.bind, h]

theorem atoms_of_level {n : Int} (h : offsetBound atom = .ok n) :
    decomposeLevelExpr atom.level = .ok [atom] ∧
      decomposeLhsLevelExpr atom.level = .ok [atom] := by
  have single := decomposeAtom_level h
  have shape : maxAtoms atom.level = .ok [atom] ∧ lhsAtoms atom.level = .ok [atom] := by
    generalize atom.level = level at single
    cases level with
    | max _ _ | imax _ _ => cases single
    | zero | succ _ | param _ => simp [maxAtoms, lhsAtoms, single, bind, Except.bind]
  rw [decomposeLevelExpr, decomposeLhsLevelExpr, Atom.level_normal, shape.1, shape.2]
  exact ⟨rfl, rfl⟩

/-- The answer about two atoms is read from the table. -/
theorem entailsLevelLe_atoms {lhs rhs : Atom} {source target : Nat}
    {m n : Int} (lhsWf : ensureLevelWf context.params lhs.level = .ok ())
    (rhsWf : ensureLevelWf context.params rhs.level = .ok ())
    (htarget : atomBaseIndex context.params lhs.base = .ok target)
    (hsource : atomBaseIndex context.params rhs.base = .ok source)
    (hlhs : offsetBound lhs = .ok m) (hrhs : offsetBound rhs = .ok n) :
    context.entailsLevelLe lhs.level rhs.level = .ok
      (levelEqStackSafe lhs.level rhs.level || context.closureEntails source target (n - m)) := by
  obtain ⟨_, lhsAtoms⟩ := atoms_of_level hlhs
  obtain ⟨rhsAtoms, _⟩ := atoms_of_level hrhs
  have atoms : context.entailsAtoms lhs.level rhs.level =
      .ok (context.closureEntails source target (n - m)) := by
    cases edge : context.closureEntails source target (n - m) <;>
      simp [UniverseContext.entailsAtoms, lhsAtoms, rhsAtoms, UniverseContext.everyAtomBounded,
        UniverseContext.someAtomBounds, hsource, htarget, hlhs, hrhs, edge, ensureUniverseEdgeLimit,
        maxUniverseAtomInequalities, Result.ensure, bind, Except.bind]
  rw [UniverseContext.entailsLevelLe, UniverseContext.entailsLevelLeAt, lhsWf, rhsWf]
  simp only [Atom.level_normal, bind, Except.bind]
  cases same : levelEqStackSafe lhs.level rhs.level with
  | true => rfl
  | false =>
    simp only [Bool.false_eq_true, if_false, Bool.false_or]
    split
    next imaxLhs imaxRhs heq =>
      -- the level of an atom is never an `imax`
      have single := decomposeAtom_level hlhs
      rw [heq] at single
      cases single
    next => exact atoms

/-- A recorded inequality entails every one between the same bases that leaves at least as
    much room. -/
theorem entailsLevelLe_of_shifted (accepted : Accepted params constraints context added)
    (hmem : inequality ∈ added) {lhs rhs : Atom} {m n : Int}
    (lhsBase : lhs.base = inequality.lhs.base) (rhsBase : rhs.base = inequality.rhs.base)
    (hlhs : offsetBound lhs = .ok m) (hrhs : offsetBound rhs = .ok n)
    (room : lhs.offset + inequality.rhs.offset ≤ rhs.offset + inequality.lhs.offset) :
    context.entailsLevelLe lhs.level rhs.level = .ok true ∧
      ensureLevelWf context.params lhs.level = .ok () ∧
      ensureLevelWf context.params rhs.level = .ok () := by
  obtain ⟨source, target, bound, hsource, htarget, _, _, hget, hle⟩ :=
    accepted.recorded inequality hmem
  rw [← rhsBase] at hsource
  rw [← lhsBase] at htarget
  have lhsWf := Atom.level_wf accepted.resolved htarget
  have rhsWf := Atom.level_wf accepted.resolved hsource
  rw [← accepted.params_eq] at lhsWf rhsWf hsource htarget
  refine ⟨?_, lhsWf, rhsWf⟩
  have edge : context.closureEntails source target (n - m) = true := by
    have hm := offsetBound_eq hlhs
    have hn := offsetBound_eq hrhs
    simp only [UniverseContext.closureEntails, hget, decide_eq_true_eq]
    omega
  rw [entailsLevelLe_atoms lhsWf rhsWf htarget hsource hlhs hrhs, edge, Bool.or_true]

theorem entailsLevelLe_of_recorded (accepted : Accepted params constraints context added)
    (hmem : inequality ∈ added) :
    context.entailsLevelLe inequality.lhs.level inequality.rhs.level = .ok true := by
  obtain ⟨_, _, _, _, _, hrhs, hlhs, _⟩ := accepted.recorded inequality hmem
  exact (entailsLevelLe_of_shifted accepted hmem rfl rfl hlhs hrhs (Nat.le_of_eq (Nat.add_comm _ _))).1

/-! ### When entailment is sound -/

/-- When the valuations of the constraints satisfy what has been recorded for them. -/
theorem imaxHarmless_of_recorded (accepted : Accepted params constraints context added)
    (holds : ∀ ρ, Satisfies ρ constraints → ∀ inequality ∈ added, inequality.Holds ρ) :
    IMaxHarmless constraints := by
  intro ρ hρ constraint hmem relation differ
  obtain ⟨inequalities, hdecompose, hsub⟩ := accepted.decomposes.of_mem hmem
  obtain ⟨hlhs, hrhs⟩ := accepted.canonical constraint hmem
  have assumed := (decomposeConstraint_spec hlhs hrhs hdecompose ρ).mp
    fun inequality hin => holds ρ hρ inequality (hsub inequality hin)
  simpa [UniverseConstraint.Assumed, relation, differ] using assumed

theorem imaxHarmless_of_sound (accepted : Accepted params constraints context added)
    (sound : ∀ lhs rhs ρ, Satisfies ρ constraints →
      context.entailsLevelLe lhs rhs = .ok true → lhs.eval ρ ≤ rhs.eval ρ) :
    IMaxHarmless constraints := by
  refine imaxHarmless_of_recorded accepted fun ρ hρ inequality hin => ?_
  have entailed := entailsLevelLe_of_recorded accepted hin
  simpa only [Atom.level_eval, AtomInequality.Holds] using sound _ _ ρ hρ entailed

theorem assumed_of_imaxHarmless
    (harmless : IMaxHarmless constraints) (hρ : Satisfies ρ constraints) :
    ∀ c ∈ constraints, c.Assumed ρ := by
  intro c hc
  have declared := hρ c hc
  cases hrel : c.relation with
  | le =>
    simp only [UniverseConstraint.Assumed, hrel]
    by_cases same : c.lhs = c.rhs
    · exact .inl same
    · exact .inr (harmless ρ hρ c hc hrel same)
  | eq =>
    simp only [UniverseConstraint.Holds, hrel] at declared
    simpa only [UniverseConstraint.Assumed, hrel] using declared

/-- Entailment against an accepted context is sound, for all levels and all valuations
    of the declared constraints, exactly when those constraints are `IMaxHarmless`. -/
theorem entailsLevelLe_sound_iff {params : List String} {constraints : List UniverseConstraint}
    {context : UniverseContext} (h : UniverseContext.new params constraints = .ok context) :
    (∀ lhs rhs ρ, Satisfies ρ constraints →
      context.entailsLevelLe lhs rhs = .ok true → lhs.eval ρ ≤ rhs.eval ρ) ↔
    IMaxHarmless constraints := by
  obtain ⟨added, accepted⟩ := new_accepted h
  constructor
  · exact imaxHarmless_of_sound accepted
  · intro harmless lhs rhs ρ hρ entailed
    exact entailsLevelLe_sound accepted (assumed_of_imaxHarmless harmless hρ) entailed

theorem entailsLevelLe_sound_iff_at_order :
    ∃ context, UniverseContext.new ["u", "v"] [⟨.param "u", .le, .param "v"⟩] = .ok context ∧
      ∀ lhs rhs ρ, ρ "u" ≤ ρ "v" →
        context.entailsLevelLe lhs rhs = .ok true → lhs.eval ρ ≤ rhs.eval ρ := by
  let context : UniverseContext := ⟨["u", "v"], [⟨.param "u", .le, .param "v"⟩],
    [[some 0, none, none], [some 0, some 0, none], [some 0, some 0, some 0]]⟩
  have built : UniverseContext.new ["u", "v"] [⟨.param "u", .le, .param "v"⟩] = .ok context := by
    decide +kernel
  have harmless : IMaxHarmless [⟨.param "u", .le, .param "v"⟩] := by
    intro ρ hρ c hc _ _
    obtain rfl := List.mem_singleton.mp hc
    exact hρ _ (List.mem_singleton.mpr rfl)
  refine ⟨context, built, fun lhs rhs ρ order entailed => ?_⟩
  refine (entailsLevelLe_sound_iff built).mpr harmless lhs rhs ρ (fun c hc => ?_) entailed
  obtain rfl := List.mem_singleton.mp hc
  exact order

/-- `imax u v <= w` is read as `max u v <= w`, so `u <= w` is entailed; at `u = 5`,
    `v = 0`, `w = 0` the constraint holds and the conclusion does not. -/
theorem entailsLevelLe_unsound_at_imax :
    ¬ ∀ params constraints context, UniverseContext.new params constraints = .ok context →
      ∀ lhs rhs ρ, Satisfies ρ constraints →
        context.entailsLevelLe lhs rhs = .ok true → lhs.eval ρ ≤ rhs.eval ρ := by
  intro sound
  let constraints : List UniverseConstraint := [⟨.imax (.param "u") (.param "v"), .le, .param "w"⟩]
  let ρ : String → Nat := fun name => if name = "u" then 5 else 0
  have satisfied : Satisfies ρ constraints := by
    intro c hc
    obtain rfl := List.mem_singleton.mp hc
    decide +kernel
  have bad := sound ["u", "v", "w"] constraints
    ⟨["u", "v", "w"], constraints,
      [[some 0, none, none, none], [some 0, some 0, none, none], [some 0, none, some 0, none],
        [some 0, some 0, some 0, some 0]]⟩
    (by decide +kernel) (.param "u") (.param "w") ρ satisfied (by decide +kernel)
  exact absurd bad (by decide +kernel)

end NpaCore.Kernel
