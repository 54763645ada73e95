import NpaCore.Syntax.Renormalize

/-!
# Renaming the parameters of a level

The checkers share the level language and name parameters differently. A renaming that keeps
the order of the names is invisible to comparison and to normalisation; one that does not is
visible there, because the operands of a `max` are put in order.

## Main results

`mapNames_eval`: the value, under the valuation pulled back.
`mapNames_normalizeLevel`: normalisation commutes with a renaming that keeps the order.
-/

namespace NpaCore.Level

variable {ν μ : Type}

def mapNames (f : ν → μ) : Level ν → Level μ
  | zero => zero
  | succ inner => succ (mapNames f inner)
  | max lhs rhs => max (mapNames f lhs) (mapNames f rhs)
  | imax lhs rhs => imax (mapNames f lhs) (mapNames f rhs)
  | param name => param (f name)

/-- All parameters are among the names. -/
def Over (names : Set ν) (level : Level ν) : Prop := ∀ name ∈ level.params, name ∈ names

variable {lhs rhs : Level ν}

section Over

variable {names : Set ν}

@[simp] theorem over_zero : (zero : Level ν).Over names := nofun

@[simp] theorem over_succ {inner : Level ν} : (succ inner).Over names ↔ inner.Over names := Iff.rfl

@[simp] theorem over_max :
    (max lhs rhs).Over names ↔ lhs.Over names ∧ rhs.Over names := by
  simp [Over, params, or_imp, forall_and]

@[simp] theorem over_imax :
    (imax lhs rhs).Over names ↔ lhs.Over names ∧ rhs.Over names := by
  simp [Over, params, or_imp, forall_and]

@[simp] theorem over_param {name : ν} : (param name).Over names ↔ name ∈ names := by
  simp [Over, params]

theorem Over.normalizeLevel [Ord ν] {level : Level ν} (h : level.Over names) :
    (normalizeLevel level).Over names :=
  fun name mem => h name (normalizeLevel_params level mem)

end Over

section MapNames

variable (f : ν → μ)

theorem mapNames_eval (ρ : μ → Nat) (level : Level ν) :
    (mapNames f level).eval ρ = level.eval (ρ ∘ f) := by
  induction level with
  | zero | param _ => rfl
  | succ inner ih => rw [mapNames, eval, ih, eval]
  | max lhs rhs ihl ihr | imax lhs rhs ihl ihr => rw [mapNames, eval, ihl, ihr, eval]

theorem mapNames_maxEval (ρ : μ → Nat) (level : Level ν) :
    (mapNames f level).maxEval ρ = level.maxEval (ρ ∘ f) := by
  induction level with
  | zero | param _ => rfl
  | succ inner ih => rw [mapNames, maxEval, ih, maxEval]
  | max lhs rhs ihl ihr | imax lhs rhs ihl ihr => rw [mapNames, maxEval, ihl, ihr, maxEval]

theorem mapNames_injective (injective : Function.Injective f) :
    Function.Injective (mapNames f) := by
  intro lhs rhs same
  induction lhs generalizing rhs with
  | zero => cases rhs <;> first | rfl | cases same
  | succ inner ih =>
    cases rhs with
    | succ other => rw [ih (succ.inj same)]
    | zero | max | imax | param => cases same
  | max l r ihl ihr =>
    cases rhs with
    | max l' r' =>
      obtain ⟨left, right⟩ := max.inj same
      rw [ihl left, ihr right]
    | zero | succ | imax | param => cases same
  | imax l r ihl ihr =>
    cases rhs with
    | imax l' r' =>
      obtain ⟨left, right⟩ := imax.inj same
      rw [ihl left, ihr right]
    | zero | succ | max | param => cases same
  | param name =>
    cases rhs with
    | param other => rw [injective (param.inj same)]
    | zero | succ | max | imax => cases same

@[simp] theorem mapNames_size (level : Level ν) : (mapNames f level).size = level.size := by
  induction level with
  | zero | param _ => rfl
  | succ inner ih => rw [mapNames, size, ih, size]
  | max lhs rhs ihl ihr | imax lhs rhs ihl ihr => rw [mapNames, size, ihl, ihr, size]

@[simp] theorem mapNames_rank (level : Level ν) : (mapNames f level).rank = level.rank := by
  cases level <;> rfl

@[simp] theorem mapNames_levelFromNat (n : Nat) :
    mapNames f (levelFromNat n) = levelFromNat n := by
  induction n with
  | zero => rfl
  | succ n ih => rw [levelFromNat, mapNames, ih, levelFromNat]

theorem mapNames_levelAsNatFrom (value : Nat) (level : Level ν) :
    levelAsNatFrom value (mapNames f level) = levelAsNatFrom value level := by
  induction level generalizing value with
  | succ inner ih => simp only [mapNames, levelAsNatFrom, ih]
  | zero | max | imax | param => rfl

@[simp] theorem mapNames_levelAsNat (level : Level ν) :
    levelAsNat (mapNames f level) = levelAsNat level :=
  mapNames_levelAsNatFrom f 0 level

end MapNames

/-! ### Renamings that keep the order -/

/-- The renaming keeps the order of the names. -/
def KeepsOrder [Ord ν] [Ord μ] (f : ν → μ) (names : Set ν) : Prop :=
  ∀ a ∈ names, ∀ b ∈ names, compare (f a) (f b) = compare a b

namespace KeepsOrder

variable [Ord ν] [Ord μ] {f : ν → μ} {names : Set ν}

theorem levelCmp (keeps : KeepsOrder f names) (left : lhs.Over names) (right : rhs.Over names) :
    levelCmpStackSafe (mapNames f lhs) (mapNames f rhs) = levelCmpStackSafe lhs rhs := by
  induction lhs generalizing rhs with
  | zero => cases rhs <;> rfl
  | succ inner ih =>
    cases rhs with
    | succ other => exact ih left right
    | _ => rfl
  | max l r ihl ihr =>
    cases rhs with
    | max l' r' =>
      obtain ⟨hl, hr⟩ := over_max.mp left
      obtain ⟨hl', hr'⟩ := over_max.mp right
      simp only [mapNames, levelCmpStackSafe, ihl hl hl', ihr hr hr']
    | _ => rfl
  | imax l r ihl ihr =>
    cases rhs with
    | imax l' r' =>
      obtain ⟨hl, hr⟩ := over_imax.mp left
      obtain ⟨hl', hr'⟩ := over_imax.mp right
      simp only [mapNames, levelCmpStackSafe, ihl hl hl', ihr hr hr']
    | _ => rfl
  | param name =>
    cases rhs with
    | param other => exact keeps name (over_param.mp left) other (over_param.mp right)
    | _ => rfl

theorem levelEq (keeps : KeepsOrder f names) (left : lhs.Over names) (right : rhs.Over names) :
    levelEqStackSafe (mapNames f lhs) (mapNames f rhs) = levelEqStackSafe lhs rhs := by
  rw [levelEqStackSafe, keeps.levelCmp left right, levelEqStackSafe]

/-- What is left of a pair when neither level is zero. -/
theorem symbolicMaxPair (keeps : KeepsOrder f names) {l r : Level ν} (left : l.Over names)
    (right : r.Over names) :
    (match levelAsNat (mapNames f l), levelAsNat (mapNames f r) with
      | some lhsNat, some rhsNat => levelFromNat (Max.max lhsNat rhsNat)
      | _, _ => if (levelCmpStackSafe (mapNames f r) (mapNames f l)).isLT then
          max (mapNames f r) (mapNames f l) else max (mapNames f l) (mapNames f r)) =
      mapNames f (match levelAsNat l, levelAsNat r with
        | some lhsNat, some rhsNat => levelFromNat (Max.max lhsNat rhsNat)
        | _, _ => if (levelCmpStackSafe r l).isLT then max r l else max l r) := by
  rw [mapNames_levelAsNat, mapNames_levelAsNat, keeps.levelCmp right left]
  split
  next => rw [mapNames_levelFromNat]
  next => split <;> rfl

theorem normalizeMaxPair (keeps : KeepsOrder f names) (left : lhs.Over names)
    (right : rhs.Over names) :
    NpaCore.Level.normalizeMaxPair (mapNames f lhs) (mapNames f rhs) =
      mapNames f (NpaCore.Level.normalizeMaxPair lhs rhs) := by
  unfold NpaCore.Level.normalizeMaxPair
  rw [keeps.levelEq left right]
  split
  next => rfl
  next =>
    cases lhs with
    | zero => rfl
    | succ _ | max _ _ | imax _ _ | param _ =>
      cases rhs with
      | zero => rfl
      | succ _ | max _ _ | imax _ _ | param _ => exact keeps.symbolicMaxPair left right

theorem normalizeIMaxPair (keeps : KeepsOrder f names) (left : lhs.Over names)
    (right : rhs.Over names) :
    NpaCore.Level.normalizeIMaxPair (mapNames f lhs) (mapNames f rhs) =
      mapNames f (NpaCore.Level.normalizeIMaxPair lhs rhs) := by
  cases rhs with
  | succ inner => exact keeps.normalizeMaxPair left right
  | zero | max _ _ | imax _ _ | param _ => rfl

/-- Normalisation does not see the renaming. -/
theorem normalizeLevel (keeps : KeepsOrder f names) {level : Level ν} (overNames : level.Over names) :
    NpaCore.Level.normalizeLevel (mapNames f level) =
      mapNames f (NpaCore.Level.normalizeLevel level) := by
  induction level with
  | zero | param _ => rfl
  | succ inner ih => exact congrArg succ (ih overNames)
  | max lhs rhs ihl ihr =>
    obtain ⟨left, right⟩ := over_max.mp overNames
    simp only [mapNames, NpaCore.Level.normalizeLevel]
    rw [ihl left, ihr right, keeps.normalizeMaxPair left.normalizeLevel right.normalizeLevel]
  | imax lhs rhs ihl ihr =>
    obtain ⟨left, right⟩ := over_imax.mp overNames
    simp only [mapNames, NpaCore.Level.normalizeLevel]
    rw [ihl left, ihr right, keeps.normalizeIMaxPair left.normalizeLevel right.normalizeLevel]

end KeepsOrder

end NpaCore.Level
