import NpaCore.Lib.StackFold
import NpaCore.Syntax.Level

/-!
# The loops of `level.rs`

The kernel walks levels with stacks of its own, so that a deep level cannot exhaust the
stack of the process: a stack of pairs for the comparison, and two stacks, of frames and of
values, for normalisation and for substitution. `Syntax.Level` has the recursions that these
loops unfold; here are the loops, and each is equal to its recursion.

## Main results

`normalizeLevel_normal`: a normalised level is normal.
`levelCmpLoop_eq`, `normalizeLevelLoop_eq`, `substituteLevelLoop_eq`: the loops compute what
the recursions do.
`normalizeLevelLoop_laws`: normalisation keeps the value, is idempotent, and levels that
`level_eq` identifies have the same value.
-/

namespace NpaCore.Level

variable {ν : Type}

/-! ### Comparison -/

/-- The loop of `level_cmp_stack_safe`, from the pair on top of the stack. -/
def cmpPending [Ord ν] : List (Level ν × Level ν) → Ordering
  | [] => .eq
  | (lhs, rhs) :: pending =>
    let ordering := compare lhs.rank rhs.rank
    if ordering ≠ .eq then ordering
    else match lhs, rhs with
      | zero, zero => cmpPending pending
      | succ lhs, succ rhs => cmpPending ((lhs, rhs) :: pending)
      | max lhsL lhsR, max rhsL rhsR => cmpPending ((lhsL, rhsL) :: (lhsR, rhsR) :: pending)
      | imax lhsL lhsR, imax rhsL rhsR => cmpPending ((lhsL, rhsL) :: (lhsR, rhsR) :: pending)
      | param lhs, param rhs =>
        let ordering := compare lhs rhs
        if ordering ≠ .eq then ordering else cmpPending pending
      | _, _ => ordering
  termination_by pending => (pending.map fun pair => pair.1.size).sum
  decreasing_by all_goals simp [size]; try omega

/-- `level_cmp_stack_safe`. -/
def levelCmpLoop [Ord ν] (lhs rhs : Level ν) : Ordering := cmpPending [(lhs, rhs)]

theorem then_of_ne {a b : Ordering} (h : a ≠ .eq) : a.then b = a := by
  cases a <;> first | rfl | contradiction

/-- The pair on top is compared before the pairs below it. -/
theorem cmpPending_cons [Ord ν] (lhs rhs : Level ν) (pending : List (Level ν × Level ν)) :
    cmpPending ((lhs, rhs) :: pending) = (levelCmpStackSafe lhs rhs).then (cmpPending pending) := by
  induction lhs generalizing rhs pending with
  | zero => cases rhs <;> simp [cmpPending, levelCmpStackSafe, rank, compare, compareOfLessAndEq]
  | succ inner ih =>
    cases rhs with
    | succ other =>
      rw [cmpPending, levelCmpStackSafe]
      simpa [rank] using ih other pending
    | _ => simp [cmpPending, levelCmpStackSafe, rank, compare, compareOfLessAndEq]
  | max l r ihl ihr =>
    cases rhs with
    | max l' r' =>
      rw [cmpPending, levelCmpStackSafe]
      simpa [rank, ihl, ihr] using (Ordering.then_assoc _ _ _).symm
    | _ => simp [cmpPending, levelCmpStackSafe, rank, compare, compareOfLessAndEq]
  | imax l r ihl ihr =>
    cases rhs with
    | imax l' r' =>
      rw [cmpPending, levelCmpStackSafe]
      simpa [rank, ihl, ihr] using (Ordering.then_assoc _ _ _).symm
    | _ => simp [cmpPending, levelCmpStackSafe, rank, compare, compareOfLessAndEq]
  | param name =>
    cases rhs with
    | param other =>
      rw [cmpPending, levelCmpStackSafe]
      by_cases same : compare name other = .eq
      · simp [rank, same]
      · simp [rank, same, then_of_ne same]
    | _ => simp [cmpPending, levelCmpStackSafe, rank, compare, compareOfLessAndEq]

theorem levelCmpLoop_eq [Ord ν] (lhs rhs : Level ν) :
    levelCmpLoop lhs rhs = levelCmpStackSafe lhs rhs := by
  rw [levelCmpLoop, cmpPending_cons, cmpPending, Ordering.then_eq]

/-! ### Normal levels -/

section Normal

variable [Ord ν] [Std.LawfulEqOrd ν] [Std.OrientedOrd ν]

omit [Std.LawfulEqOrd ν] in
theorem levelCmpStackSafe_swap (lhs rhs : Level ν) :
    (levelCmpStackSafe lhs rhs).swap = levelCmpStackSafe rhs lhs := by
  induction lhs generalizing rhs with
  | zero => cases rhs <;> rfl
  | succ inner ih =>
    cases rhs with
    | succ other => exact ih other
    | _ => rfl
  | max l r ihl ihr =>
    cases rhs with
    | max l' r' => rw [levelCmpStackSafe, levelCmpStackSafe, Ordering.swap_then, ihl, ihr]
    | _ => rfl
  | imax l r ihl ihr =>
    cases rhs with
    | imax l' r' => rw [levelCmpStackSafe, levelCmpStackSafe, Ordering.swap_then, ihl, ihr]
    | _ => rfl
  | param name =>
    cases rhs with
    | param other => exact Std.OrientedOrd.eq_swap.symm
    | _ => rfl

omit [Std.LawfulEqOrd ν] [Std.OrientedOrd ν] in
theorem levelFromNat_normal (n : Nat) :
    normalizeLevel (levelFromNat n : Level ν) = levelFromNat n := by
  induction n with
  | zero => rfl
  | succ n ih => rw [levelFromNat, normalizeLevel, ih]

/-- Operands that `normalize_max_pair` leaves as they are: no case applies to them. -/
structure OrderedPair (lhs rhs : Level ν) : Prop where
  differ : lhs ≠ rhs
  left : lhs ≠ zero
  right : rhs ≠ zero
  symbolic : levelAsNat lhs = none ∨ levelAsNat rhs = none
  ordered : levelCmpStackSafe rhs lhs ≠ .lt

variable {lhs rhs : Level ν}

omit [Std.OrientedOrd ν] in
theorem normalizeMaxPair_ordered (h : OrderedPair lhs rhs) :
    normalizeMaxPair lhs rhs = max lhs rhs := by
  have differ : ¬levelEqStackSafe lhs rhs = true := fun same => h.differ (levelEqStackSafe_iff.mp same)
  unfold normalizeMaxPair
  rw [if_neg differ]
  split
  next => exact absurd rfl h.left
  next => exact absurd rfl h.right
  next =>
    split
    next hl hr => rcases h.symbolic with none | none <;> simp_all
    next => rw [if_neg fun less => h.ordered (Ordering.isLT_iff_eq_lt.mp less)]

/-- What `normalize_max_pair` can give: an operand, a numeral, or the operands in order. -/
theorem normalizeMaxPair_cases (lhs rhs : Level ν) :
    normalizeMaxPair lhs rhs = lhs ∨ normalizeMaxPair lhs rhs = rhs ∨
      (∃ n, normalizeMaxPair lhs rhs = levelFromNat n) ∨
      (normalizeMaxPair lhs rhs = max lhs rhs ∧ OrderedPair lhs rhs) ∨
      (normalizeMaxPair lhs rhs = max rhs lhs ∧ OrderedPair rhs lhs) := by
  unfold normalizeMaxPair
  split
  next => exact .inl rfl
  next differ =>
    rw [levelEqStackSafe_iff] at differ
    split
    next => exact .inr (.inl rfl)
    next => exact .inl rfl
    next left right =>
      split
      next => exact .inr (.inr (.inl ⟨_, rfl⟩))
      next symbolic =>
        have either : levelAsNat lhs = none ∨ levelAsNat rhs = none := by
          cases hl : levelAsNat lhs with
          | none => exact .inl rfl
          | some l =>
            cases hr : levelAsNat rhs with
            | none => exact .inr rfl
            | some r => exact (symbolic l r hl hr).elim
        refine .inr (.inr (.inr ?_))
        split
        next less =>
          have less := Ordering.isLT_iff_eq_lt.mp less
          refine .inr ⟨rfl, fun same => differ same.symm, right, left, either.symm, ?_⟩
          rw [← levelCmpStackSafe_swap, less]
          decide
        next notLess =>
          refine .inl ⟨rfl, differ, left, right, either, fun less => notLess ?_⟩
          exact Ordering.isLT_iff_eq_lt.mpr less

theorem normalizeMaxPair_normal (left : normalizeLevel lhs = lhs)
    (right : normalizeLevel rhs = rhs) :
    normalizeLevel (normalizeMaxPair lhs rhs) = normalizeMaxPair lhs rhs := by
  rcases normalizeMaxPair_cases lhs rhs with same | same | ⟨n, same⟩ | ⟨same, pair⟩ | ⟨same, pair⟩
  · rw [same, left]
  · rw [same, right]
  · rw [same, levelFromNat_normal]
  · rw [same, normalizeLevel, left, right, normalizeMaxPair_ordered pair]
  · rw [same, normalizeLevel, left, right, normalizeMaxPair_ordered pair]

theorem normalizeIMaxPair_normal (left : normalizeLevel lhs = lhs)
    (right : normalizeLevel rhs = rhs) :
    normalizeLevel (normalizeIMaxPair lhs rhs) = normalizeIMaxPair lhs rhs := by
  cases rhs with
  | zero => rfl
  | succ inner => exact normalizeMaxPair_normal left right
  | max _ _ | imax _ _ | param _ =>
    simp only [normalizeIMaxPair]
    rw [normalizeLevel, left, right]
    rfl

theorem normalizeLevel_normal (level : Level ν) :
    normalizeLevel (normalizeLevel level) = normalizeLevel level := by
  induction level with
  | zero | param _ => rfl
  | succ inner ih => rw [normalizeLevel, normalizeLevel, ih]
  | max lhs rhs ihl ihr => exact normalizeMaxPair_normal ihl ihr
  | imax lhs rhs ihl ihr => exact normalizeIMaxPair_normal ihl ihr

/-- The operands of a normal `max` are normal. -/
theorem normal_of_max (normal : normalizeLevel (max lhs rhs) = max lhs rhs) :
    normalizeLevel lhs = lhs ∧ normalizeLevel rhs = rhs := by
  have left := normalizeLevel_size lhs
  have right := normalizeLevel_size rhs
  rw [normalizeLevel] at normal
  rcases normalizeMaxPair_cases (normalizeLevel lhs) (normalizeLevel rhs) with
    same | same | ⟨n, same⟩ | ⟨same, _⟩ | ⟨same, pair⟩
  · rw [same] at normal
    rw [normal] at left
    simp only [size] at left
    omega
  · rw [same] at normal
    rw [normal] at right
    simp only [size] at right
    omega
  · rw [same] at normal
    cases n <;> cases normal
  · rw [same] at normal
    exact max.inj normal
  · rw [same] at normal
    obtain ⟨first, second⟩ := max.inj normal
    -- operands that changed places would be normal forms of each other
    have equal : normalizeLevel rhs = normalizeLevel lhs := by
      rw [← second, normalizeLevel_normal, second]
    exact absurd equal pair.differ

/-- The operands of a normal `imax` are normal. -/
theorem normal_of_imax (normal : normalizeLevel (imax lhs rhs) = imax lhs rhs) :
    normalizeLevel lhs = lhs ∧ normalizeLevel rhs = rhs := by
  have left := normalizeLevel_size lhs
  rw [normalizeLevel] at normal
  cases shape : normalizeLevel rhs with
  | zero =>
    rw [shape] at normal
    cases normal
  | succ inner =>
    rw [shape, normalizeIMaxPair] at normal
    rcases normalizeMaxPair_cases (normalizeLevel lhs) (succ inner) with
      same | same | ⟨n, same⟩ | ⟨same, _⟩ | ⟨same, _⟩
    · rw [same] at normal
      rw [normal] at left
      simp only [size] at left
      omega
    · rw [same] at normal
      cases normal
    · rw [same] at normal
      cases n <;> cases normal
    · rw [same] at normal
      cases normal
    · rw [same] at normal
      cases normal
  | max _ _ | imax _ _ | param _ =>
    rw [shape] at normal
    exact imax.inj normal

end Normal

/-! ### Normalisation and substitution -/

section Loops

/-- The frames of the loops that wait for their operands. -/
inductive LevelFrame where
  | succ
  | max
  | imax
  deriving DecidableEq, Repr

/-- `values.pop().unwrap_or(Level::Zero)`, with the stack that is left. -/
def popValue (values : List (Level ν)) : Level ν × List (Level ν) :=
  (values.head?.getD zero, values.tail)

variable (onParam : ν → Level ν) (onMax onIMax : Level ν → Level ν → Level ν)

/-- What the loops do with a level that they visit. -/
def visitLevel : Level ν → Level ν ⊕ LevelFrame × List (Level ν)
  | zero => .inl zero
  | param name => .inl (onParam name)
  | succ inner => .inr (.succ, [inner])
  | max lhs rhs => .inr (.max, [lhs, rhs])
  | imax lhs rhs => .inr (.imax, [lhs, rhs])

/-- What the loops do with a frame that waited. The right operand is on top. -/
def buildLevel (frame : LevelFrame) (values : List (Level ν)) : List (Level ν) :=
  match frame with
  | .succ =>
    let (inner, values) := popValue values
    succ inner :: values
  | .max =>
    let (rhs, values) := popValue values
    let (lhs, values) := popValue values
    onMax lhs rhs :: values
  | .imax =>
    let (rhs, values) := popValue values
    let (lhs, values) := popValue values
    onIMax lhs rhs :: values

theorem size_pos (level : Level ν) : 0 < level.size := by
  cases level <;> simp [size]

def levelOpening : StackFold.Opening (Level ν) (Level ν) LevelFrame where
  view := visitLevel onParam
  apply := buildLevel onMax onIMax
  size := size
  size_pos := size_pos
  size_below := by
    intro level frame below view
    cases level <;> simp [visitLevel] at view <;> simp [← view.2, size]

/-- The recursion that the loops unfold. -/
def foldLevel : Level ν → Level ν
  | zero => zero
  | succ inner => succ (foldLevel inner)
  | max lhs rhs => onMax (foldLevel lhs) (foldLevel rhs)
  | imax lhs rhs => onIMax (foldLevel lhs) (foldLevel rhs)
  | param name => onParam name

theorem foldLevel_computes : StackFold.Computes (levelOpening onParam onMax onIMax)
    (foldLevel onParam onMax onIMax) where
  leaf {level v} view := by
    cases level <;> simp [levelOpening, visitLevel] at view <;> exact view.symm
  node {level frame below} view values := by
    cases level <;> simp [levelOpening, visitLevel] at view <;>
      obtain ⟨rfl, rfl⟩ := view <;> rfl

variable [Ord ν]

/-- The loop of `normalize_level`. -/
def normalizeLevelLoop (level : Level ν) : Level ν :=
  StackFold.run (levelOpening param normalizeMaxPair normalizeIMaxPair) zero level

theorem normalizeLevelLoop_eq (level : Level ν) :
    normalizeLevelLoop level = normalizeLevel level := by
  rw [normalizeLevelLoop, StackFold.run_eq (foldLevel_computes _ _ _)]
  induction level with
  | zero | param _ => rfl
  | succ inner ih => rw [foldLevel, ih, normalizeLevel]
  | max lhs rhs ihl ihr | imax lhs rhs ihl ihr => rw [foldLevel, ihl, ihr, normalizeLevel]

/-- The loop of `substitute_level`. -/
def substituteLevelLoop [DecidableEq ν] (names : List ν) (levels : List (Level ν))
    (level : Level ν) : Level ν :=
  StackFold.run
    (levelOpening (fun name => (lookupParam names levels name).getD (param name)) mkMax mkIMax)
    zero level

theorem substituteLevelLoop_eq [DecidableEq ν] (names : List ν) (levels : List (Level ν))
    (level : Level ν) :
    substituteLevelLoop names levels level = substituteLevel names levels level := by
  rw [substituteLevelLoop, StackFold.run_eq (foldLevel_computes _ _ _)]
  induction level with
  | zero | param _ => rfl
  | succ inner ih => rw [foldLevel, ih, substituteLevel]
  | max lhs rhs ihl ihr | imax lhs rhs ihl ihr => rw [foldLevel, ihl, ihr, substituteLevel]

end Loops

/-! ### The two substitutions -/

section Substitutions

variable [DecidableEq ν]

/-- `params.iter().position(..)`: of the parameters with the name, the first one counts. -/
theorem lookupParam_eq_position {names : List ν} {levels : List (Level ν)}
    (count : names.length = levels.length) (name : ν) :
    lookupParam names levels name =
      (names.findIdx? fun first => first = name).bind fun index => levels[index]? := by
  induction names generalizing levels with
  | nil => cases levels <;> rfl
  | cons first names ih =>
    cases levels with
    | nil => cases count
    | cons level levels =>
      rw [lookupParam, List.findIdx?_cons]
      by_cases same : first = name
      · simp [same]
      · simp only [same, if_false, decide_false, Bool.false_eq_true, ih (Nat.succ.inj count)]
        cases names.findIdx? fun first => first = name <;> rfl

variable [Ord ν] [Std.LawfulEqOrd ν] [Std.OrientedOrd ν]

omit [DecidableEq ν] in
theorem normalizeLevel_mkMax (lhs rhs : Level ν) :
    normalizeLevel (mkMax lhs rhs) = normalizeMaxPair (normalizeLevel lhs) (normalizeLevel rhs) :=
  normalizeLevel_normal _

omit [DecidableEq ν] in
theorem normalizeLevel_mkIMax (lhs rhs : Level ν) :
    normalizeLevel (mkIMax lhs rhs) = normalizeIMaxPair (normalizeLevel lhs) (normalizeLevel rhs) :=
  normalizeLevel_normal _

/-- The substitution that tracks changes normalises only above a change, but what it leaves as
    it is has the normal form of what would be rebuilt. -/
theorem levelEq_substLevel_substituteLevel (names : List ν) (levels : List (Level ν))
    (level : Level ν) :
    levelEq (substLevel names levels level) (substituteLevel names levels level) = true := by
  rw [levelEq, levelEqStackSafe_iff]
  induction level with
  | zero => rfl
  | succ inner ih =>
    rw [substituteLevel, normalizeLevel, ← ih, substLevel, substLevel, substLevelChanged]
    cases substLevelChanged names levels inner <;> rfl
  | max lhs rhs ihl ihr =>
    rw [substituteLevel, normalizeLevel_mkMax, ← ihl, ← ihr]
    simp only [substLevel, substLevelChanged]
    split
    next hl hr => rw [hl, hr]; rfl
    next => exact normalizeLevel_mkMax _ _
  | imax lhs rhs ihl ihr =>
    rw [substituteLevel, normalizeLevel_mkIMax, ← ihl, ← ihr]
    simp only [substLevel, substLevelChanged]
    split
    next hl hr => rw [hl, hr]; rfl
    next => exact normalizeLevel_mkIMax _ _
  | param name =>
    simp only [substLevel, substLevelChanged, substituteLevel]

end Substitutions

/-! ### The laws of normalisation -/

/-- `level_eq` on the loops. -/
def levelEqLoop [Ord ν] (lhs rhs : Level ν) : Bool :=
  (levelCmpLoop (normalizeLevelLoop lhs) (normalizeLevelLoop rhs)).isEq

theorem levelEqLoop_eq [Ord ν] (lhs rhs : Level ν) : levelEqLoop lhs rhs = levelEq lhs rhs := by
  rw [levelEqLoop, levelCmpLoop_eq, normalizeLevelLoop_eq, normalizeLevelLoop_eq]
  rfl

/-- Normalisation keeps the meaning of a level and has nothing left to do on a second pass,
and levels with the same normal form mean the same. -/
theorem normalizeLevelLoop_laws (level : Level String) :
    (∀ ρ, (normalizeLevelLoop level).eval ρ = level.eval ρ) ∧
      normalizeLevelLoop (normalizeLevelLoop level) = normalizeLevelLoop level ∧
      ∀ other, levelEqLoop level other = true → ∀ ρ, level.eval ρ = other.eval ρ := by
  refine ⟨fun ρ => ?_, ?_, fun other same ρ => ?_⟩
  · rw [normalizeLevelLoop_eq, normalizeLevel_eval]
  · rw [normalizeLevelLoop_eq, normalizeLevelLoop_eq, normalizeLevel_normal]
  · rw [levelEqLoop_eq] at same
    exact levelEq_eval same ρ

end NpaCore.Level
