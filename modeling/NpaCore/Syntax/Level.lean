import Mathlib.Data.List.Basic
import Mathlib.Order.Lattice
import Mathlib.Tactic.Common

/-!
# Universe levels

The level language of `npa-kernel/src/level.rs`, over an arbitrary type of
parameter names: the checkers that share it name parameters differently. The
explicit work stacks of the source are written as structural recursions that
visit the same nodes in the same order.

## Main results

`normalizeLevel_eval`: normalisation keeps the value under every valuation.
`levelEq_eval`: levels that `level_eq` identifies have equal values.
`substLevel_eval`, `substituteLevel_eval`: both substitutions evaluate by
composing the valuation with the substituted levels.
-/

namespace NpaCore

/-- `Level` of `level.rs`. -/
inductive Level (ν : Type) where
  | zero
  | succ (inner : Level ν)
  | max (lhs rhs : Level ν)
  | imax (lhs rhs : Level ν)
  | param (name : ν)
  deriving DecidableEq, Repr, Inhabited

namespace Level

variable {ν : Type}

/-! ### Meaning -/

/-- The value of a level. An `imax` is zero when its right side is. -/
def eval (ρ : ν → Nat) : Level ν → Nat
  | zero => 0
  | succ inner => inner.eval ρ + 1
  | max lhs rhs => Max.max (lhs.eval ρ) (rhs.eval ρ)
  | imax lhs rhs => if rhs.eval ρ = 0 then 0 else Max.max (lhs.eval ρ) (rhs.eval ρ)
  | param name => ρ name

/-- The number of constructors of a level. -/
def size : Level ν → Nat
  | zero => 1
  | succ inner => inner.size + 1
  | max lhs rhs => lhs.size + rhs.size + 1
  | imax lhs rhs => lhs.size + rhs.size + 1
  | param _ => 1

/-- The parameters that occur in a level, in source order. -/
def params : Level ν → List ν
  | zero => []
  | succ inner => inner.params
  | max lhs rhs => lhs.params ++ rhs.params
  | imax lhs rhs => lhs.params ++ rhs.params
  | param name => [name]

variable {level : Level ν}

theorem eval_congr {ρ σ : ν → Nat}
    (agree : ∀ name ∈ level.params, ρ name = σ name) : level.eval ρ = level.eval σ := by
  induction level with
  | zero => rfl
  | succ inner ih => simp only [eval, ih agree]
  | max lhs rhs ihl ihr =>
    simp only [params, List.mem_append] at agree
    simp only [eval, ihl fun n h => agree n (.inl h), ihr fun n h => agree n (.inr h)]
  | imax lhs rhs ihl ihr =>
    simp only [params, List.mem_append] at agree
    simp only [eval, ihl fun n h => agree n (.inl h), ihr fun n h => agree n (.inr h)]
  | param name => exact agree name (by simp [params])

/-- The value of a level when every `imax` is read as `max`. -/
def maxEval (ρ : ν → Nat) : Level ν → Nat
  | zero => 0
  | succ inner => inner.maxEval ρ + 1
  | max lhs rhs => Max.max (lhs.maxEval ρ) (rhs.maxEval ρ)
  | imax lhs rhs => Max.max (lhs.maxEval ρ) (rhs.maxEval ρ)
  | param name => ρ name

theorem eval_le_maxEval (ρ : ν → Nat) (level : Level ν) : level.eval ρ ≤ level.maxEval ρ := by
  induction level with
  | zero => exact Nat.le_refl _
  | succ inner ih => exact Nat.succ_le_succ ih
  | max lhs rhs ihl ihr =>
    simp only [eval, maxEval]
    omega
  | imax lhs rhs ihl ihr =>
    simp only [eval, maxEval]
    split <;> omega
  | param name => exact Nat.le_refl _

/-! ### Order -/

/-- The constructor rank used by the comparison. -/
def rank : Level ν → Nat
  | zero => 0
  | succ _ => 1
  | max _ _ => 2
  | imax _ _ => 3
  | param _ => 4

/-- `level_cmp_stack_safe`: by rank, then by the parts from left to right. -/
def levelCmpStackSafe [Ord ν] : Level ν → Level ν → Ordering
  | zero, zero => .eq
  | succ lhs, succ rhs => levelCmpStackSafe lhs rhs
  | max lhsL lhsR, max rhsL rhsR =>
    (levelCmpStackSafe lhsL rhsL).then (levelCmpStackSafe lhsR rhsR)
  | imax lhsL lhsR, imax rhsL rhsR =>
    (levelCmpStackSafe lhsL rhsL).then (levelCmpStackSafe lhsR rhsR)
  | param lhs, param rhs => compare lhs rhs
  | lhs, rhs => compare lhs.rank rhs.rank

/-- `level_eq_stack_safe`, which is also `==` on levels. -/
def levelEqStackSafe [Ord ν] (lhs rhs : Level ν) : Bool :=
  (levelCmpStackSafe lhs rhs).isEq

theorem then_eq_eq {a b : Ordering} (h : a.then b = .eq) : a = .eq ∧ b = .eq := by
  cases a <;> simp_all [Ordering.then]

theorem levelCmpStackSafe_eq [Ord ν] [Std.LawfulEqOrd ν] {lhs rhs : Level ν}
    (h : levelCmpStackSafe lhs rhs = .eq) : lhs = rhs := by
  induction lhs generalizing rhs with
  | zero => cases rhs <;> simp_all [levelCmpStackSafe, rank, compare, compareOfLessAndEq]
  | succ inner ih =>
    cases rhs with
    | succ other => exact congrArg succ (ih h)
    | _ => simp_all [levelCmpStackSafe, rank, compare, compareOfLessAndEq]
  | max l r ihl ihr =>
    cases rhs with
    | max l' r' =>
      obtain ⟨hl, hr⟩ := then_eq_eq h
      rw [ihl hl, ihr hr]
    | _ => simp_all [levelCmpStackSafe, rank, compare, compareOfLessAndEq]
  | imax l r ihl ihr =>
    cases rhs with
    | imax l' r' =>
      obtain ⟨hl, hr⟩ := then_eq_eq h
      rw [ihl hl, ihr hr]
    | _ => simp_all [levelCmpStackSafe, rank, compare, compareOfLessAndEq]
  | param name =>
    cases rhs with
    | param other => exact congrArg param (Std.LawfulEqOrd.eq_of_compare h)
    | _ => simp_all [levelCmpStackSafe, rank, compare, compareOfLessAndEq]

theorem levelCmpStackSafe_refl [Ord ν] [Std.ReflOrd ν] (level : Level ν) :
    levelCmpStackSafe level level = .eq := by
  induction level with
  | zero => rfl
  | succ inner ih => exact ih
  | max l r ihl ihr => simp [levelCmpStackSafe, ihl, ihr]
  | imax l r ihl ihr => simp [levelCmpStackSafe, ihl, ihr]
  | param name => exact Std.ReflOrd.compare_self

theorem levelEqStackSafe_iff [Ord ν] [Std.LawfulEqOrd ν] {lhs rhs : Level ν} :
    levelEqStackSafe lhs rhs = true ↔ lhs = rhs := by
  constructor
  · intro h
    exact levelCmpStackSafe_eq (Ordering.isEq_iff_eq_eq.mp h)
  · rintro rfl
    simp [levelEqStackSafe, levelCmpStackSafe_refl]

/-! ### Numerals -/

/-- The counting loop of `level_as_nat`, which gives up when a `u32` overflows. -/
def levelAsNatFrom (value : Nat) : Level ν → Option Nat
  | zero => some value
  | succ inner => if value + 1 < 0x100000000 then levelAsNatFrom (value + 1) inner else none
  | _ => none

/-- `level_as_nat`. -/
def levelAsNat (level : Level ν) : Option Nat := levelAsNatFrom 0 level

/-- `level_from_nat`. -/
def levelFromNat : Nat → Level ν
  | 0 => zero
  | n + 1 => succ (levelFromNat n)

theorem levelAsNatFrom_eval (ρ : ν → Nat) {value n : Nat}
    (h : levelAsNatFrom value level = some n) : value + level.eval ρ = n := by
  induction level generalizing value with
  | zero => simpa [levelAsNatFrom, eval] using h
  | succ inner ih =>
    simp only [levelAsNatFrom] at h
    split at h
    · have step := ih h
      simp only [eval]
      omega
    · cases h
  | max l r => cases h
  | imax l r => cases h
  | param name => cases h

theorem levelAsNat_eval (ρ : ν → Nat) {n : Nat}
    (h : levelAsNat level = some n) : level.eval ρ = n := by
  have count := levelAsNatFrom_eval ρ h
  omega

@[simp] theorem levelFromNat_eval (ρ : ν → Nat) (n : Nat) :
    (levelFromNat n : Level ν).eval ρ = n := by
  induction n with
  | zero => rfl
  | succ n ih => simp only [levelFromNat, eval, ih]

theorem levelFromNat_size (n : Nat) : (levelFromNat n : Level ν).size = n + 1 := by
  induction n with
  | zero => rfl
  | succ n ih => simp only [levelFromNat, size, ih]

theorem levelAsNatFrom_size {value n : Nat}
    (h : levelAsNatFrom value level = some n) : value + level.size = n + 1 := by
  induction level generalizing value with
  | zero => simpa [levelAsNatFrom, size] using h
  | succ inner ih =>
    simp only [levelAsNatFrom] at h
    split at h
    · have step := ih h
      simp only [size]
      omega
    · cases h
  | max l r => cases h
  | imax l r => cases h
  | param name => cases h

/-! ### Normalisation -/

section Normalize

variable [Ord ν]

/-- `normalize_max_pair`. -/
def normalizeMaxPair (lhs rhs : Level ν) : Level ν :=
  if levelEqStackSafe lhs rhs then lhs
  else match lhs, rhs with
    | zero, rhs => rhs
    | lhs, zero => lhs
    | lhs, rhs =>
      match levelAsNat lhs, levelAsNat rhs with
      | some lhsNat, some rhsNat => levelFromNat (Max.max lhsNat rhsNat)
      | _, _ => if (levelCmpStackSafe rhs lhs).isLT then max rhs lhs else max lhs rhs

/-- The step of `normalize_level` at an `imax` whose parts are normal. -/
def normalizeIMaxPair (lhs rhs : Level ν) : Level ν :=
  match rhs with
  | zero => zero
  | succ inner => normalizeMaxPair lhs (succ inner)
  | rhs => imax lhs rhs

/-- `normalize_level`. -/
def normalizeLevel : Level ν → Level ν
  | zero => zero
  | succ inner => succ (normalizeLevel inner)
  | max lhs rhs => normalizeMaxPair (normalizeLevel lhs) (normalizeLevel rhs)
  | imax lhs rhs => normalizeIMaxPair (normalizeLevel lhs) (normalizeLevel rhs)
  | param name => param name

/-- `Level::max`, which normalises what it builds. -/
def mkMax (lhs rhs : Level ν) : Level ν := normalizeLevel (max lhs rhs)

/-- `Level::imax`, which normalises what it builds. -/
def mkIMax (lhs rhs : Level ν) : Level ν := normalizeLevel (imax lhs rhs)

/-- `level_eq`. -/
def levelEq (lhs rhs : Level ν) : Bool :=
  levelEqStackSafe (normalizeLevel lhs) (normalizeLevel rhs)

/-- `levels_eq`. -/
def levelsEq (lhs rhs : List (Level ν)) : Bool :=
  lhs.length == rhs.length && (lhs.zip rhs).all fun pair => levelEq pair.1 pair.2

theorem levelEq_comm [Std.LawfulEqOrd ν] (lhs rhs : Level ν) : levelEq lhs rhs = levelEq rhs lhs := by
  rw [Bool.eq_iff_iff, levelEq, levelEq, levelEqStackSafe_iff, levelEqStackSafe_iff]
  exact eq_comm

theorem levelsEq_self [Std.LawfulEqOrd ν] (levels : List (Level ν)) :
    levelsEq levels levels = true := by
  induction levels with
  | nil => rfl
  | cons level levels ih =>
    have equal : levelEq level level = true := levelEqStackSafe_iff.mpr rfl
    simp only [levelsEq, beq_self_eq_true, Bool.true_and] at ih
    simp [levelsEq, equal, ih]

theorem levelsEq_comm [Std.LawfulEqOrd ν] (lhs rhs : List (Level ν)) :
    levelsEq lhs rhs = levelsEq rhs lhs := by
  induction lhs generalizing rhs with
  | nil =>
    cases rhs with
    | nil => rfl
    | cons => rfl
  | cons l lhs ih =>
    cases rhs with
    | nil => rfl
    | cons r rhs =>
      have rest := ih rhs
      simp only [levelsEq] at rest
      simp only [levelsEq, List.zip_cons_cons, List.all_cons, List.length_cons, levelEq_comm l r]
      cases levelEq r l with
      | false => simp
      | true => simpa using rest

theorem normalizeMaxPair_size (lhs rhs : Level ν) :
    (normalizeMaxPair lhs rhs).size ≤ lhs.size + rhs.size + 1 := by
  unfold normalizeMaxPair
  split
  · omega
  · split
    · omega
    · omega
    · split
      next hl hr =>
        have := levelAsNatFrom_size hl
        have := levelAsNatFrom_size hr
        rw [levelFromNat_size]
        omega
      next =>
        split <;> simp only [size] <;> omega

/-- Normalisation never makes a level larger. -/
theorem normalizeLevel_size (level : Level ν) : (normalizeLevel level).size ≤ level.size := by
  induction level with
  | zero => exact Nat.le_refl _
  | succ inner ih => exact Nat.succ_le_succ ih
  | max lhs rhs ihl ihr =>
    have pair := normalizeMaxPair_size (normalizeLevel lhs) (normalizeLevel rhs)
    simp only [normalizeLevel, size]
    omega
  | imax lhs rhs ihl ihr =>
    simp only [normalizeLevel, normalizeIMaxPair]
    split
    next => simp only [size]; omega
    next inner heq =>
      have pair := normalizeMaxPair_size (normalizeLevel lhs) (succ inner)
      rw [heq] at ihr
      simp only [size] at *
      omega
    next => simp only [size]; omega
  | param name => exact Nat.le_refl _

omit [Ord ν] in
@[simp] theorem levelFromNat_params (n : Nat) : (levelFromNat n : Level ν).params = [] := by
  induction n with
  | zero => rfl
  | succ n ih => exact ih

theorem normalizeMaxPair_params (lhs rhs : Level ν) :
    (normalizeMaxPair lhs rhs).params ⊆ lhs.params ++ rhs.params := by
  unfold normalizeMaxPair
  split
  next => exact List.subset_append_left _ _
  next =>
    split
    next => exact List.subset_append_right _ _
    next => exact List.subset_append_left _ _
    next =>
      split
      next => simp
      next =>
        split
        next =>
          intro p hp
          exact List.mem_append.mpr (List.mem_append.mp hp).symm
        next => exact List.Subset.refl _

/-- Normalisation adds no parameters. -/
theorem normalizeLevel_params (level : Level ν) : (normalizeLevel level).params ⊆ level.params := by
  have both : ∀ {a b c d : List ν}, a ⊆ c → b ⊆ d → a ++ b ⊆ c ++ d := by
    intro a b c d left right
    exact List.append_subset.mpr ⟨List.subset_append_of_subset_left _ left,
      List.subset_append_of_subset_right _ right⟩
  induction level with
  | zero | param name => exact List.Subset.refl _
  | succ inner ih => exact ih
  | max lhs rhs ihl ihr => exact List.Subset.trans (normalizeMaxPair_params _ _) (both ihl ihr)
  | imax lhs rhs ihl ihr =>
    refine List.Subset.trans ?_ (both ihl ihr)
    simp only [normalizeLevel, normalizeIMaxPair]
    split
    next => simp [params]
    next inner same =>
      rw [same]
      exact normalizeMaxPair_params (normalizeLevel lhs) (succ inner)
    next => exact List.Subset.refl _

variable [Std.LawfulEqOrd ν]

theorem normalizeMaxPair_eval (ρ : ν → Nat) (lhs rhs : Level ν) :
    (normalizeMaxPair lhs rhs).eval ρ = Max.max (lhs.eval ρ) (rhs.eval ρ) := by
  unfold normalizeMaxPair
  split
  next heq =>
    rw [levelEqStackSafe_iff.mp heq, Nat.max_self]
  next =>
    split
    · simp [eval]
    · simp [eval]
    · split
      next hl hr =>
        rw [levelFromNat_eval, levelAsNat_eval ρ hl, levelAsNat_eval ρ hr]
      next =>
        split
        · simp only [eval, Nat.max_comm]
        · rfl

theorem normalizeIMaxPair_eval (ρ : ν → Nat) (lhs rhs : Level ν) :
    (normalizeIMaxPair lhs rhs).eval ρ = (imax lhs rhs).eval ρ := by
  unfold normalizeIMaxPair
  split
  · simp [eval]
  · simp [normalizeMaxPair_eval, eval]
  · rfl

theorem normalizeLevel_eval (ρ : ν → Nat) (level : Level ν) :
    (normalizeLevel level).eval ρ = level.eval ρ := by
  induction level with
  | zero => rfl
  | succ inner ih => simp only [normalizeLevel, eval, ih]
  | max lhs rhs ihl ihr => simp only [normalizeLevel, normalizeMaxPair_eval, eval, ihl, ihr]
  | imax lhs rhs ihl ihr => simp only [normalizeLevel, normalizeIMaxPair_eval, eval, ihl, ihr]
  | param name => rfl

@[simp] theorem mkMax_eval (ρ : ν → Nat) (lhs rhs : Level ν) :
    (mkMax lhs rhs).eval ρ = Max.max (lhs.eval ρ) (rhs.eval ρ) :=
  normalizeLevel_eval ρ _

@[simp] theorem mkIMax_eval (ρ : ν → Nat) (lhs rhs : Level ν) :
    (mkIMax lhs rhs).eval ρ = (imax lhs rhs).eval ρ :=
  normalizeLevel_eval ρ _

theorem levelEq_eval {lhs rhs : Level ν} (h : levelEq lhs rhs = true) (ρ : ν → Nat) :
    lhs.eval ρ = rhs.eval ρ := by
  rw [← normalizeLevel_eval ρ lhs, ← normalizeLevel_eval ρ rhs, levelEqStackSafe_iff.mp h]

theorem levelsEq_eval {lhs rhs : List (Level ν)} (h : levelsEq lhs rhs = true) :
    List.Forall₂ (fun l r => ∀ ρ : ν → Nat, l.eval ρ = r.eval ρ) lhs rhs := by
  induction lhs generalizing rhs with
  | nil =>
    cases rhs with
    | nil => exact .nil
    | cons r rs => simp [levelsEq] at h
  | cons l ls ih =>
    cases rhs with
    | nil => simp [levelsEq] at h
    | cons r rs =>
      simp only [levelsEq, List.length_cons, List.zip_cons_cons, List.all_cons, Bool.and_eq_true,
        beq_iff_eq, Nat.add_right_cancel_iff] at h
      refine .cons (levelEq_eval h.2.1) (ih ?_)
      simp only [levelsEq, Bool.and_eq_true, beq_iff_eq]
      exact ⟨h.1, h.2.2⟩

end Normalize

/-! ### Substitution of parameters -/

section Subst

variable [DecidableEq ν]

/-- The level that a parameter list and an argument list give to a name. -/
def lookupParam (names : List ν) (levels : List (Level ν)) (name : ν) : Option (Level ν) :=
  match names, levels with
  | first :: names, level :: levels =>
    if first = name then some level else lookupParam names levels name
  | _, _ => none

/-- The valuation of the parameters that the substituted levels induce. -/
def substValuation (names : List ν) (levels : List (Level ν)) (ρ : ν → Nat) (name : ν) : Nat :=
  match lookupParam names levels name with
  | some level => level.eval ρ
  | none => ρ name

variable [Ord ν]

/-- `subst_level_changed` of `subst.rs`: `none` when nothing was substituted, and
    only the parts above a substituted parameter are normalised. -/
def substLevelChanged (names : List ν) (levels : List (Level ν)) : Level ν → Option (Level ν)
  | zero => none
  | succ inner => (substLevelChanged names levels inner).map succ
  | max lhs rhs =>
    match substLevelChanged names levels lhs, substLevelChanged names levels rhs with
    | none, none => none
    | newLhs, newRhs => some (mkMax (newLhs.getD lhs) (newRhs.getD rhs))
  | imax lhs rhs =>
    match substLevelChanged names levels lhs, substLevelChanged names levels rhs with
    | none, none => none
    | newLhs, newRhs => some (mkIMax (newLhs.getD lhs) (newRhs.getD rhs))
  | param name => lookupParam names levels name

/-- A level with its parameters substituted as `subst.rs` does it. -/
def substLevel (names : List ν) (levels : List (Level ν)) (level : Level ν) : Level ν :=
  (substLevelChanged names levels level).getD level

/-- `substitute_level` of `level.rs`, which normalises every `max` and `imax`. -/
def substituteLevel (names : List ν) (levels : List (Level ν)) : Level ν → Level ν
  | zero => zero
  | succ inner => succ (substituteLevel names levels inner)
  | max lhs rhs => mkMax (substituteLevel names levels lhs) (substituteLevel names levels rhs)
  | imax lhs rhs => mkIMax (substituteLevel names levels lhs) (substituteLevel names levels rhs)
  | param name => (lookupParam names levels name).getD (param name)

/-- The parameters after a substitution of all parameters are those of the levels. -/
theorem substLevel_params {names : List ν} {levels : List (Level ν)}
    {S : ν → Prop} (h : ∀ q ∈ level.params, ∃ found, lookupParam names levels q = some found ∧
      ∀ p ∈ found.params, S p) : ∀ p ∈ (substLevel names levels level).params, S p := by
  unfold substLevel
  induction level with
  | zero => simp [substLevelChanged, params]
  | succ inner ih =>
    simp only [substLevelChanged]
    cases changed : substLevelChanged names levels inner with
    | none | some _ =>
      rw [changed] at ih
      exact ih h
  | max lhs rhs ihl ihr | imax lhs rhs ihl ihr =>
    have left := ihl fun q hq => h q (List.mem_append_left _ hq)
    have right := ihr fun q hq => h q (List.mem_append_right _ hq)
    have either : ∀ p ∈ ((substLevelChanged names levels lhs).getD lhs).params ++
        ((substLevelChanged names levels rhs).getD rhs).params, S p := by
      intro p hp
      rcases List.mem_append.mp hp with hp | hp
      · exact left p hp
      · exact right p hp
    simp only [substLevelChanged]
    split
    next hl hr =>
      rw [hl, hr] at either
      exact either
    next => exact fun p hp => either p (normalizeLevel_params _ hp)
  | param name =>
    obtain ⟨found, hfound, inScope⟩ := h name (by simp [params])
    simpa [substLevelChanged, hfound] using inScope

variable [Std.LawfulEqOrd ν]

theorem substLevel_eval (names : List ν) (levels : List (Level ν)) (ρ : ν → Nat)
    (level : Level ν) :
    (substLevel names levels level).eval ρ = level.eval (substValuation names levels ρ) := by
  unfold substLevel
  induction level with
  | zero => rfl
  | succ inner ih =>
    simp only [substLevelChanged]
    cases h : substLevelChanged names levels inner <;> simp_all [eval]
  | max lhs rhs ihl ihr =>
    simp only [substLevelChanged]
    cases hl : substLevelChanged names levels lhs <;>
      cases hr : substLevelChanged names levels rhs <;> simp_all [eval]
  | imax lhs rhs ihl ihr =>
    simp only [substLevelChanged]
    cases hl : substLevelChanged names levels lhs <;>
      cases hr : substLevelChanged names levels rhs <;> simp_all [eval]
  | param name =>
    simp only [substLevelChanged, eval, substValuation]
    cases lookupParam names levels name <;> rfl

theorem substituteLevel_eval (names : List ν) (levels : List (Level ν)) (ρ : ν → Nat)
    (level : Level ν) :
    (substituteLevel names levels level).eval ρ =
      level.eval (substValuation names levels ρ) := by
  induction level with
  | zero => rfl
  | succ inner ih => simp only [substituteLevel, eval, ih]
  | max lhs rhs ihl ihr => simp only [substituteLevel, mkMax_eval, eval, ihl, ihr]
  | imax lhs rhs ihl ihr => simp only [substituteLevel, mkIMax_eval, eval, ihl, ihr]
  | param name =>
    simp only [substituteLevel, eval, substValuation]
    cases lookupParam names levels name <;> rfl

end Subst

end Level

end NpaCore
