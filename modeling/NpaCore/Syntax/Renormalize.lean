import NpaCore.Syntax.LevelLoops

/-!
# Normalisation that normalises again

The independent checkers normalise a level as the kernel does, with two differences: an `imax`
whose right side is a successor is built again as a `max` and normalised again, and each
checker reads numerals in its own integers, which is the `reader` here.

## Main results

`renormalize_eval`, `renormalize_params`: the value is kept and no parameter is brought in.
`renormalize_eq`: the result is that of the kernel, as long as the reader reads what the
kernel reads.
-/

namespace NpaCore.Level

variable {ν : Type}

/-- How a checker reads a level as a number. The number is not larger than the level. -/
structure NumeralReader (ν : Type) where
  asNat : Level ν → Option Nat
  lt_size : ∀ {level n}, asNat level = some n → n < level.size

/-- The numbers that are read are the values of numerals. -/
def NumeralReader.Exact (reader : NumeralReader ν) : Prop :=
  ∀ {level n}, reader.asNat level = some n → level = levelFromNat n

/-- An `imax` is built again as a `max` of the same size. -/
def imaxRank : Level ν → Nat
  | imax _ _ => 1
  | zero | succ _ | max _ _ | param _ => 0

theorem imaxRank_le_one (level : Level ν) : imaxRank level ≤ 1 := by
  cases level <;> simp [imaxRank]

theorem rank_lt_of_size {lower level : Level ν} (h : lower.size < level.size) :
    2 * lower.size + imaxRank lower < 2 * level.size + imaxRank level := by
  have := imaxRank_le_one lower
  omega

theorem append_subset_append {l r l' r' : List ν} (left : l ⊆ l') (right : r ⊆ r') :
    l ++ r ⊆ l' ++ r' :=
  List.append_subset.mpr ⟨fun _ mem => List.mem_append_left r' (left mem),
    fun _ mem => List.mem_append_right l' (right mem)⟩

section Renormalize

variable [DecidableEq ν] [Ord ν] (reader : NumeralReader ν)

/-- The case of `max`, for operands that are normalised. -/
def renormalizeMax (lhs rhs : Level ν) : Level ν :=
  if lhs = rhs then lhs
  else if lhs = zero then rhs
  else if rhs = zero then lhs
  else match reader.asNat lhs, reader.asNat rhs with
    | some lhsNat, some rhsNat => levelFromNat (Max.max lhsNat rhsNat)
    | _, _ => if levelCmpStackSafe rhs lhs = .lt then max rhs lhs else max lhs rhs

/-- What the case of `max` can give: an operand, a numeral, or the operands in some order. -/
theorem renormalizeMax_cases (lhs rhs : Level ν) :
    (renormalizeMax reader lhs rhs = lhs ∧ (lhs = rhs ∨ rhs = zero)) ∨
      (renormalizeMax reader lhs rhs = rhs ∧ lhs = zero) ∨
      (∃ l r, reader.asNat lhs = some l ∧ reader.asNat rhs = some r ∧
        renormalizeMax reader lhs rhs = levelFromNat (Max.max l r)) ∨
      renormalizeMax reader lhs rhs = max lhs rhs ∨
      renormalizeMax reader lhs rhs = max rhs lhs := by
  unfold renormalizeMax
  split
  next same => exact .inl ⟨rfl, .inl same⟩
  next =>
    split
    next left => exact .inr (.inl ⟨rfl, left⟩)
    next =>
      split
      next right => exact .inl ⟨rfl, .inr right⟩
      next =>
        split
        next l r left right => exact .inr (.inr (.inl ⟨l, r, left, right, rfl⟩))
        next =>
          split
          next => exact .inr (.inr (.inr (.inr rfl)))
          next => exact .inr (.inr (.inr (.inl rfl)))

theorem renormalizeMax_size (lhs rhs : Level ν) :
    (renormalizeMax reader lhs rhs).size ≤ lhs.size + rhs.size + 1 := by
  rcases renormalizeMax_cases reader lhs rhs with
    ⟨same, _⟩ | ⟨same, _⟩ | ⟨l, r, left, right, same⟩ | same | same
  · rw [same]
    omega
  · rw [same]
    omega
  · have left := reader.lt_size left
    have right := reader.lt_size right
    rw [same, levelFromNat_size]
    omega
  · rw [same, size]
  · rw [same, size, Nat.add_comm rhs.size]

/-- The recursion, with what bounds it: the result is not larger than the level. -/
def renormalizeSized : (level : Level ν) → { normal : Level ν // normal.size ≤ level.size }
  | param name => ⟨param name, Nat.le_refl _⟩
  | zero => ⟨zero, Nat.le_refl _⟩
  | succ inner =>
    let inner := renormalizeSized inner
    ⟨succ inner.1, Nat.succ_le_succ inner.2⟩
  | max lhs rhs =>
    let lhs := renormalizeSized lhs
    let rhs := renormalizeSized rhs
    ⟨renormalizeMax reader lhs.1 rhs.1, (renormalizeMax_size reader lhs.1 rhs.1).trans
      (Nat.succ_le_succ (Nat.add_le_add lhs.2 rhs.2))⟩
  | imax lhs rhs =>
    let lhs' := renormalizeSized lhs
    let rhs' := renormalizeSized rhs
    have bound : lhs'.1.size + rhs'.1.size + 1 ≤ (imax lhs rhs).size :=
      Nat.succ_le_succ (Nat.add_le_add lhs'.2 rhs'.2)
    match shape : rhs'.1 with
    | zero => ⟨zero, by simp only [size]; omega⟩
    | succ inner =>
      let normal := renormalizeSized (max lhs'.1 (succ inner))
      ⟨normal.1, normal.2.trans (shape ▸ bound)⟩
    | max _ _ | imax _ _ | param _ => ⟨imax lhs'.1 rhs'.1, bound⟩
  termination_by level => 2 * level.size + imaxRank level
  decreasing_by
    · exact rank_lt_of_size (by simp [size])
    · exact rank_lt_of_size (by simp only [size]; omega)
    · exact rank_lt_of_size (by simp only [size]; omega)
    · exact rank_lt_of_size (by simp only [size]; omega)
    · exact rank_lt_of_size (by simp only [size]; omega)
    · have same : (max lhs'.1 (succ inner)).size ≤ (imax lhs rhs).size := shape ▸ bound
      exact Nat.lt_succ_of_le (Nat.mul_le_mul_left 2 same)

def renormalize (level : Level ν) : Level ν := (renormalizeSized reader level).1

theorem renormalize_size (level : Level ν) : (renormalize reader level).size ≤ level.size :=
  (renormalizeSized reader level).2

@[simp] theorem renormalize_zero : renormalize reader zero = zero := by
  rw [renormalize, renormalizeSized]

@[simp] theorem renormalize_param (name : ν) : renormalize reader (param name) = param name := by
  rw [renormalize, renormalizeSized]

@[simp] theorem renormalize_succ (inner : Level ν) :
    renormalize reader (succ inner) = succ (renormalize reader inner) := by
  rw [renormalize, renormalizeSized]
  rfl

@[simp] theorem renormalize_max (lhs rhs : Level ν) : renormalize reader (max lhs rhs) =
    renormalizeMax reader (renormalize reader lhs) (renormalize reader rhs) := by
  rw [renormalize, renormalizeSized]
  rfl

theorem renormalize_imax (lhs rhs : Level ν) : renormalize reader (imax lhs rhs) =
    match renormalize reader rhs with
    | zero => zero
    | succ inner => renormalize reader (max (renormalize reader lhs) (succ inner))
    | max _ _ | imax _ _ | param _ =>
      imax (renormalize reader lhs) (renormalize reader rhs) := by
  rw [renormalize, renormalizeSized]
  unfold renormalize
  split <;> simp [*]

theorem size_again {lhs rhs inner : Level ν} (shape : renormalize reader rhs = succ inner) :
    (max (renormalize reader lhs) (succ inner)).size ≤ (imax lhs rhs).size := by
  have left := renormalize_size reader lhs
  have right := renormalize_size reader rhs
  rw [shape] at right
  simp only [size] at *
  omega

/-- The induction that follows the recursion. -/
theorem renormalizeInduct {motive : Level ν → Prop} (zero : motive .zero)
    (param : ∀ name, motive (.param name)) (succ : ∀ inner, motive inner → motive (.succ inner))
    (max : ∀ lhs rhs, motive lhs → motive rhs → motive (.max lhs rhs))
    (imax : ∀ lhs rhs, motive lhs → motive rhs → (∀ inner, renormalize reader rhs = .succ inner →
      motive (.max (renormalize reader lhs) (.succ inner))) → motive (.imax lhs rhs))
    (level : Level ν) : motive level := by
  cases level with
  | zero => exact zero
  | param name => exact param name
  | succ inner => exact succ inner (renormalizeInduct zero param succ max imax inner)
  | max lhs rhs =>
    exact max lhs rhs (renormalizeInduct zero param succ max imax lhs)
      (renormalizeInduct zero param succ max imax rhs)
  | imax lhs rhs =>
    refine imax lhs rhs (renormalizeInduct zero param succ max imax lhs)
      (renormalizeInduct zero param succ max imax rhs) fun inner shape => ?_
    exact renormalizeInduct zero param succ max imax (.max (renormalize reader lhs) (.succ inner))
  termination_by 2 * level.size + imaxRank level
  decreasing_by
    · exact rank_lt_of_size (by simp [size])
    · exact rank_lt_of_size (by simp only [size]; omega)
    · exact rank_lt_of_size (by simp only [size]; omega)
    · exact rank_lt_of_size (by simp only [size]; omega)
    · exact rank_lt_of_size (by simp only [size]; omega)
    · exact Nat.lt_succ_of_le (Nat.mul_le_mul_left 2 (size_again reader shape))

/-! ### What is kept -/

theorem renormalizeMax_eval (exact : reader.Exact) (ρ : ν → Nat) (lhs rhs : Level ν) :
    (renormalizeMax reader lhs rhs).eval ρ = Max.max (lhs.eval ρ) (rhs.eval ρ) := by
  rcases renormalizeMax_cases reader lhs rhs with
    ⟨same, rfl | rfl⟩ | ⟨same, rfl⟩ | ⟨l, r, left, right, same⟩ | same | same
  · rw [same, Nat.max_self]
  · simp [same, eval]
  · simp [same, eval]
  · rw [same, exact left, exact right]
    simp only [levelFromNat_eval]
  · rw [same, eval]
  · rw [same, eval, Nat.max_comm]

theorem renormalize_eval (exact : reader.Exact) (ρ : ν → Nat) (level : Level ν) :
    (renormalize reader level).eval ρ = level.eval ρ := by
  induction level using renormalizeInduct reader with
  | zero => rw [renormalize_zero]
  | param name => rw [renormalize_param]
  | succ inner ih => rw [renormalize_succ, eval, ih, eval]
  | max lhs rhs ihl ihr => rw [renormalize_max, renormalizeMax_eval reader exact, ihl, ihr, eval]
  | imax lhs rhs ihl ihr again =>
    rw [renormalize_imax]
    cases shape : renormalize reader rhs with
    | zero =>
      rw [shape] at ihr
      simp [eval, ← ihr]
    | succ inner =>
      rw [shape] at ihr
      dsimp only
      rw [again inner shape, eval, ihl, ihr, eval, ← ihr]
      simp [eval]
    | max | imax | param =>
      dsimp only
      rw [eval, ihl, ← shape, ihr, eval]

theorem renormalizeMax_params (lhs rhs : Level ν) :
    (renormalizeMax reader lhs rhs).params ⊆ lhs.params ++ rhs.params := by
  rcases renormalizeMax_cases reader lhs rhs with
    ⟨same, _⟩ | ⟨same, _⟩ | ⟨l, r, _, _, same⟩ | same | same
  · rw [same]
    exact List.subset_append_left _ _
  · rw [same]
    exact List.subset_append_right _ _
  · simp [same]
  · rw [same]
    exact List.Subset.refl _
  · rw [same]
    intro name mem
    simpa [params, or_comm] using mem

theorem renormalize_params (level : Level ν) :
    (renormalize reader level).params ⊆ level.params := by
  induction level using renormalizeInduct reader with
  | zero => rw [renormalize_zero]; exact List.Subset.refl _
  | param name => rw [renormalize_param]; exact List.Subset.refl _
  | succ inner ih =>
    rw [renormalize_succ]
    exact ih
  | max lhs rhs ihl ihr =>
    rw [renormalize_max]
    exact List.Subset.trans (renormalizeMax_params reader _ _) (append_subset_append ihl ihr)
  | imax lhs rhs ihl ihr again =>
    rw [renormalize_imax]
    cases shape : renormalize reader rhs with
    | zero => exact List.nil_subset _
    | succ inner =>
      rw [shape] at ihr
      exact List.Subset.trans (again inner shape) (append_subset_append ihl ihr)
    | max | imax | param =>
      rw [shape] at ihr
      exact append_subset_append ihl ihr

end Renormalize

/-! ### The normal form of the kernel -/

/-- How deep a level nests. Numerals are not larger. -/
def height : Level ν → Nat
  | zero | param _ => 1
  | succ inner => inner.height + 1
  | max lhs rhs | imax lhs rhs => Max.max lhs.height rhs.height + 1

theorem height_pos (level : Level ν) : 0 < level.height := by
  cases level <;> simp [height]

theorem levelFromNat_height (n : Nat) : (levelFromNat n : Level ν).height = n + 1 := by
  induction n with
  | zero => rfl
  | succ n ih => rw [levelFromNat, height, ih]

/-- The reader reads what the kernel reads on levels up to this height. -/
def NumeralReader.ReadsUpTo (reader : NumeralReader ν) (limit : Nat) : Prop :=
  ∀ level : Level ν, level.height ≤ limit → reader.asNat level = levelAsNat level

theorem levelAsNatFrom_height {level : Level ν} {value n : Nat}
    (h : levelAsNatFrom value level = some n) : value + level.height = n + 1 := by
  induction level generalizing value with
  | zero => simpa [levelAsNatFrom, height] using h
  | succ inner ih =>
    simp only [levelAsNatFrom] at h
    split at h
    next =>
      have step := ih h
      simp only [height]
      omega
    next => cases h
  | max | imax | param => cases h

theorem levelAsNat_height {level : Level ν} {n : Nat} (h : levelAsNat level = some n) :
    level.height = n + 1 := by
  have count := levelAsNatFrom_height h
  omega

section Normal

variable [Ord ν] {reader : NumeralReader ν}

theorem normalizeMaxPair_height (lhs rhs : Level ν) :
    (normalizeMaxPair lhs rhs).height ≤ Max.max lhs.height rhs.height + 1 := by
  unfold normalizeMaxPair
  split
  next => omega
  next =>
    split
    next => omega
    next => omega
    next =>
      split
      next hl hr =>
        rw [levelFromNat_height, levelAsNat_height hl, levelAsNat_height hr]
        omega
      next =>
        split
        next => rw [height, Nat.max_comm]
        next => rw [height]

/-- Normalisation never makes a level deeper. -/
theorem normalizeLevel_height (level : Level ν) : (normalizeLevel level).height ≤ level.height := by
  induction level with
  | zero | param _ => exact Nat.le_refl _
  | succ inner ih => exact Nat.succ_le_succ ih
  | max lhs rhs ihl ihr =>
    have pair := normalizeMaxPair_height (normalizeLevel lhs) (normalizeLevel rhs)
    simp only [normalizeLevel, height]
    omega
  | imax lhs rhs ihl ihr =>
    simp only [normalizeLevel]
    cases shape : normalizeLevel rhs with
    | zero =>
      simp only [normalizeIMaxPair, height]
      omega
    | succ inner =>
      have pair := normalizeMaxPair_height (normalizeLevel lhs) (succ inner)
      rw [shape] at ihr
      simp only [normalizeIMaxPair, height] at *
      omega
    | max | imax | param =>
      rw [shape] at ihr
      simp only [normalizeIMaxPair, height] at *
      omega

variable [DecidableEq ν] [Std.LawfulEqOrd ν]

theorem renormalizeMax_eq {limit : Nat} (reads : reader.ReadsUpTo limit) {lhs rhs : Level ν}
    (left : lhs.height ≤ limit) (right : rhs.height ≤ limit) :
    renormalizeMax reader lhs rhs = normalizeMaxPair lhs rhs := by
  unfold renormalizeMax normalizeMaxPair
  simp only [levelEqStackSafe_iff, reads lhs left, reads rhs right, Ordering.isLT_iff_eq_lt]
  by_cases same : lhs = rhs
  · rw [if_pos same, if_pos same]
  rw [if_neg same, if_neg same]
  cases lhs with
  | zero => rfl
  | succ _ | max _ _ | imax _ _ | param _ => cases rhs <;> rfl

variable [Std.OrientedOrd ν]

/-- As long as the numerals that are read fit, the result is that of the kernel. -/
theorem renormalize_eq {limit : Nat} (reads : reader.ReadsUpTo limit) {level : Level ν}
    (fits : level.height ≤ limit) : renormalize reader level = normalizeLevel level := by
  induction level using renormalizeInduct reader with
  | zero => rw [renormalize_zero, normalizeLevel]
  | param name => rw [renormalize_param, normalizeLevel]
  | succ inner ih => rw [renormalize_succ, normalizeLevel, ih (Nat.le_of_succ_le fits)]
  | max lhs rhs ihl ihr =>
    simp only [height] at fits
    have left := normalizeLevel_height lhs
    have right := normalizeLevel_height rhs
    rw [renormalize_max, normalizeLevel, ihl (by omega), ihr (by omega)]
    exact renormalizeMax_eq reads (by omega) (by omega)
  | imax lhs rhs ihl ihr again =>
    simp only [height] at fits
    have left := normalizeLevel_height lhs
    have right := normalizeLevel_height rhs
    have ihl := ihl (by omega)
    have ihr := ihr (by omega)
    rw [renormalize_imax, normalizeLevel]
    cases shape : renormalize reader rhs with
    | zero => rw [← ihr, shape, normalizeIMaxPair]
    | succ inner =>
      dsimp only
      rw [ihr] at shape
      -- the operands are normal, so the second pass changes nothing below the `max`
      have normal : normalizeLevel (succ inner) = succ inner := by
        rw [← shape, normalizeLevel_normal]
      rw [again inner (ihr.trans shape) ?_, normalizeLevel, ihl, normalizeLevel_normal, normal,
        shape, normalizeIMaxPair]
      rw [shape] at right
      simp only [height] at right ⊢
      rw [ihl]
      omega
    | max | imax | param =>
      rw [ihl, ← ihr, shape]
      rfl

end Normal

end NpaCore.Level
