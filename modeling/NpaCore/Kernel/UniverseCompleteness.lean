import NpaCore.Lib.ClosedBounds
import NpaCore.Kernel.UniverseSoundness

/-!
# Completeness of universe contexts

Closing is exact unless it finds a negative cycle, whatever the wrapping sums on such a cycle
come to. An accepted table is therefore closed under composition of bounds, and each of its
bounds is attained by a valuation of the parameters: the distances to a node, taken relative
to the node of zero so that they are natural numbers.

## Main results

`new_open`: a list that passes the checks before closing is rejected exactly when no
valuation satisfies what its inequalities assume.
`universeContext_exact`: without `imax`, the declared constraints are satisfiable exactly when
they are not rejected there, and entailment between atoms is truth under all valuations.
-/

namespace NpaCore.Level

/-- No `imax` occurs in the level. -/
def imaxFree {ν : Type} : Level ν → Bool
  | zero => true
  | succ inner => inner.imaxFree
  | max lhs rhs => lhs.imaxFree && rhs.imaxFree
  | imax _ _ => false
  | param _ => true

theorem maxEval_of_imaxFree {ν : Type} {level : Level ν} (h : level.imaxFree = true)
    (ρ : ν → Nat) : level.maxEval ρ = level.eval ρ := by
  induction level with
  | zero => rfl
  | succ inner ih => simp only [maxEval, eval, ih h]
  | max lhs rhs ihl ihr =>
    obtain ⟨left, right⟩ := Bool.and_eq_true_iff.mp h
    simp only [maxEval, eval, ihl left, ihr right]
  | imax lhs rhs => cases h
  | param name => rfl

end NpaCore.Level

namespace NpaCore.Kernel

open NpaCore.Level NpaCore.DifferenceBounds

/-! ### From an assignment of the nodes to a valuation -/

/-- The values of the parameters relative to the node of zero. -/
def relativeValue (params : List String) (val : Nat → Int) (name : String) : Nat :=
  match params.findIdx? (· = name) with
  | none => 0
  | some index => (val (index + 1) - val 0).toNat

theorem ground_le_of_sat {e : DifferenceBounds.Table} (grounded : Grounded e) {val : Nat → Int}
    (hsat : Sat val e) {i : Nat} (hi : i < e.length) : val 0 ≤ val i := by
  obtain ⟨w, low, edge⟩ := (grounded i hi).2
  have below := hsat i 0 w edge
  omega

variable {params : List String}

theorem relativeValue_base {e : DifferenceBounds.Table}
    (length : e.length = params.length + 1) (grounded : Grounded e) {val : Nat → Int}
    (hsat : Sat val e) {base : AtomBase} {i : Nat} (h : atomBaseIndex params base = .ok i) :
    (base.value (relativeValue params val) : Int) = val i - val 0 := by
  have inside := (atomBaseIndex_spec h).1
  have above := ground_le_of_sat grounded hsat (length ▸ inside)
  cases base with
  | zero =>
    cases h
    simp [AtomBase.value]
  | param name =>
    simp only [atomBaseIndex] at h
    cases found : params.findIdx? (· = name) with
    | none => simp [found, Result.okOr, Except.map] at h
    | some index =>
      have at_i : index + 1 = i := by simpa [found, Result.okOr, Except.map] using h
      subst at_i
      simp only [AtomBase.value, relativeValue, found]
      omega

theorem relativeValue_holds {e : DifferenceBounds.Table}
    (length : e.length = params.length + 1) (grounded : Grounded e) {val : Nat → Int}
    (hsat : Sat val e) {inequality : AtomInequality} (recorded : Recorded params e inequality) :
    inequality.Holds (relativeValue params val) := by
  obtain ⟨source, target, bound, hsource, htarget, _, _, edge, le⟩ := recorded
  have below := hsat source target bound edge
  have sourceValue := relativeValue_base length grounded hsat hsource
  have targetValue := relativeValue_base length grounded hsat htarget
  simp only [AtomInequality.Holds, Atom.value]
  omega

/-! ### The table before and after closing -/

/-- `UniverseContext::new` up to `closure.close()`. -/
def openTable (params : List String) (constraints : List UniverseConstraint) :
    Result DifferenceBounds.Table := do
  let params ← validateUniverseParams params
  ensureUniverseConstraintsWf params constraints
  ensureUniverseNodeLimit params.length
  let (_, table) ← Result.foldEach constraints (params.length, withLowerBounds params.length)
    (addConstraint params)
  .ok table

/-- A table that the loops of `close` start from, with the inequalities in it. -/
structure Opened (params : List String) (constraints : List UniverseConstraint)
    (table : DifferenceBounds.Table) (added : List AtomInequality) : Prop where
  resolved : ∀ name ∈ params, isUnresolvedUniverseMetaParam name = false
  canonical : ∀ c ∈ constraints, normalizeLevel c.lhs = c.lhs ∧ normalizeLevel c.rhs = c.rhs
  nodes : ensureUniverseNodeLimit params.length = .ok ()
  decomposes : Decomposes constraints added
  extension : Extends params (withLowerBounds params.length) table added

variable {constraints : List UniverseConstraint}

theorem openTable_opened
    {table : DifferenceBounds.Table} (h : openTable params constraints = .ok table) :
    ∃ added, Opened params constraints table added := by
  simp only [openTable, Result.bind_eq_ok, Except.ok.injEq] at h
  obtain ⟨validated, hvalid, _, hwf, _, hnodes, ⟨_, found⟩, htable, rfl⟩ := h
  obtain ⟨rfl, resolved⟩ := validateUniverseParams_spec hvalid
  obtain ⟨added, hadded, hextends⟩ := addConstraints_extends constraints htable
  exact ⟨added, resolved, ensureUniverseConstraintsWf_canonical hwf, hnodes, hadded, hextends⟩

namespace Opened

variable {params : List String} {constraints : List UniverseConstraint}
  {table : DifferenceBounds.Table} {added : List AtomInequality}
  (opened : Opened params constraints table added)
include opened

theorem few : params.length ≤ 64 := by
  have nodes := opened.nodes
  rw [ensureUniverseNodeLimit, Result.ensure_eq_ok] at nodes
  exact Nat.le_of_succ_le_succ (of_decide_eq_true nodes)

theorem start : Start (params.length + 1) weightLimit table := by
  have square := opened.extension.square (withLowerBounds_square _)
  have length : table.length = (withLowerBounds params.length).length :=
    square.1.trans (withLowerBounds_square params.length).1.symm
  exact ⟨square, (withLowerBounds_grounded _).mono opened.extension.tightens length, by decide,
    opened.extension.within (withLowerBounds_within _)⟩

theorem fits : weightLimit * 2 ^ Max.max (params.length + 1 - 1) 1 ≤ 2 ^ 127 - 1 := by
  have most : Max.max (params.length + 1 - 1) 1 ≤ 64 := Nat.max_le.mpr ⟨opened.few, by decide⟩
  calc weightLimit * 2 ^ Max.max (params.length + 1 - 1) 1 ≤ weightLimit * 2 ^ 64 :=
        Int.mul_le_mul_of_nonneg_left (pow_le_pow_right₀ (by decide) most) (by decide)
    _ ≤ 2 ^ 127 - 1 := by decide

theorem grounded_close : Grounded (close addI128 table) := by
  have start := opened.start
  exact start.grounded.mono (close_tightens addI128 table)
    ((close_square start.square).1.trans start.square.1.symm)

/-- The sums wrap only on tables that are rejected anyway. -/
theorem closed (accepted : hasNegativeDiagonal (close addI128 table) = false) :
    Closed (params.length + 1) (close addI128 table) := by
  have start := opened.start
  have noNegative := (hasNegativeDiagonal_eq_false (close_square start.square)).mp accepted
  have same := close_eq_exact start (fun a b => addI128_exact) opened.fits (.inl noNegative)
  rw [same] at noNegative ⊢
  exact close_closed start.square start.grounded noNegative

theorem recorded_close : ∀ inequality ∈ added, Recorded params (close addI128 table) inequality :=
  fun inequality mem =>
    (opened.extension.recorded (withLowerBounds_square _) inequality mem).mono
      (close_tightens addI128 table)

/-- Closing rejects a table exactly when no valuation satisfies its inequalities. -/
theorem rejected_iff : hasNegativeDiagonal (close addI128 table) = true ↔
    ¬∃ ρ, ∀ inequality ∈ added, inequality.Holds ρ := by
  constructor
  · rintro negative ⟨ρ, holds⟩
    have hsat := close_table_sat opened.nodes opened.extension
      (opened.extension.sat ρ holds (withLowerBounds_sat _ ρ))
    have noNegative : NoNegative (close addI128 table) := by
      intro i w edge
      have below := hsat i i w edge
      omega
    have square : Square (params.length + 1) (close addI128 table) :=
      close_square opened.start.square
    rw [(hasNegativeDiagonal_eq_false square).mpr noNegative] at negative
    cases negative
  · intro unsatisfiable
    by_contra accepted
    have closed := opened.closed (Bool.eq_false_of_not_eq_true accepted)
    have ground := (closed.diagonal 0 (Nat.succ_pos _)).ge
    obtain ⟨val, hsat, _⟩ := exists_sat_of_le_bound closed opened.grounded_close
      (Nat.succ_pos _) (Nat.succ_pos _) ground
    exact unsatisfiable ⟨relativeValue params val, fun inequality mem =>
      relativeValue_holds closed.square.1 opened.grounded_close hsat
        (opened.recorded_close inequality mem)⟩

end Opened

/-! ### Building a context -/

theorem new_of_nonempty (nonempty : constraints.isEmpty = false) :
    UniverseContext.new params constraints = (do
      let table ← openTable params constraints
      Result.ensure (!hasNegativeDiagonal (close addI128 table)) .unsatisfiableUniverseConstraints
      .ok ⟨params, constraints, close addI128 table⟩) := by
  simp only [UniverseContext.new, nonempty, openTable, Bool.false_eq_true, if_false]
  cases valid : validateUniverseParams params with
  | error e => rfl
  | ok validated =>
    obtain ⟨rfl, _⟩ := validateUniverseParams_spec valid
    simp only [bind, Except.bind]
    cases ensureUniverseConstraintsWf validated constraints with
    | error e => rfl
    | ok _ =>
      cases ensureUniverseNodeLimit validated.length with
      | error e => rfl
      | ok _ =>
        dsimp only
        generalize Result.foldEach constraints _ _ = folded
        cases folded <;> rfl

section Avoids

open Result

theorem checkUniverseParams_avoids (seen params : List String) :
    Avoids .unsatisfiableUniverseConstraints (checkUniverseParams seen params) := by
  induction params generalizing seen with
  | nil => exact avoids_ok
  | cons name rest ih =>
    exact avoids_bind (avoids_ensure nofun) fun _ _ => avoids_bind (avoids_ensure nofun) fun _ _ =>
      ih (name :: seen)

theorem validateUniverseParams_avoids (params : List String) :
    Avoids .unsatisfiableUniverseConstraints (validateUniverseParams params) :=
  avoids_bind (checkUniverseParams_avoids [] params) fun _ _ =>
    avoids_bind (avoids_ensure nofun) fun _ _ => avoids_ok

theorem ensureLevelWf_avoids (delta : List String) (level : Level) :
    Avoids .unsatisfiableUniverseConstraints (ensureLevelWf delta level) := by
  induction level with
  | zero => exact avoids_ok
  | succ inner ih => exact ih
  | max lhs rhs ihl ihr | imax lhs rhs ihl ihr => exact avoids_bind ihl fun _ _ => ihr
  | param name => exact avoids_bind (avoids_ensure nofun) fun _ _ => avoids_ensure nofun

theorem ensureConstraintOrder_avoids (constraints : List UniverseConstraint) :
    Avoids .unsatisfiableUniverseConstraints (ensureConstraintOrder constraints) := by
  fun_induction ensureConstraintOrder constraints with
  | case1 | case2 => exact avoids_error nofun
  | case3 first second rest less ih => exact ih
  | case4 => exact avoids_ok

theorem ensureUniverseConstraintsWf_avoids (delta : List String)
    (constraints : List UniverseConstraint) :
    Avoids .unsatisfiableUniverseConstraints (ensureUniverseConstraintsWf delta constraints) := by
  have level (l : Level) :
      Avoids .unsatisfiableUniverseConstraints (ensureCanonicalLevel delta l) :=
    avoids_bind (ensureLevelWf_avoids delta l) fun _ _ => avoids_ensure nofun
  exact avoids_bind (avoids_forEach fun c _ => avoids_bind (level c.lhs) fun _ _ => level c.rhs)
    fun _ _ => ensureConstraintOrder_avoids constraints

theorem offsetBound_avoids (atom : Atom) :
    Avoids .unsatisfiableUniverseConstraints (offsetBound atom) := by
  unfold offsetBound
  split
  next => exact avoids_ok
  next => exact avoids_error nofun

theorem decomposeAtom_avoids (level : Level) :
    Avoids .unsatisfiableUniverseConstraints (decomposeAtom level) := by
  refine avoids_bind ?_ fun atom _ => avoids_bind (offsetBound_avoids atom) fun _ _ => avoids_ok
  fun_induction decomposeAtomFrom level 0 level with
  | case1 offset inner less ih => exact ih
  | case2 | case5 => exact avoids_error nofun
  | case3 | case4 => exact avoids_ok

theorem maxAtoms_avoids (level : Level) :
    Avoids .unsatisfiableUniverseConstraints (maxAtoms level) := by
  induction level with
  | max lhs rhs ihl ihr =>
    exact avoids_bind ihl fun _ _ => avoids_bind ihr fun _ _ => avoids_ok
  | zero | succ _ _ | imax _ _ _ _ | param _ =>
    exact avoids_bind (decomposeAtom_avoids _) fun _ _ => avoids_ok

theorem lhsAtoms_avoids (level : Level) :
    Avoids .unsatisfiableUniverseConstraints (lhsAtoms level) := by
  induction level with
  | max lhs rhs ihl ihr | imax lhs rhs ihl ihr =>
    exact avoids_bind ihl fun _ _ => avoids_bind ihr fun _ _ => avoids_ok
  | zero | succ _ _ | param _ =>
    exact avoids_bind (decomposeAtom_avoids _) fun _ _ => avoids_ok

theorem decomposeLeConstraint_avoids (lhs rhs : Level) :
    Avoids .unsatisfiableUniverseConstraints (decomposeLeConstraint lhs rhs) := by
  simp only [decomposeLeConstraint]
  split
  next => exact avoids_ok
  next =>
    refine avoids_bind (avoids_bind (lhsAtoms_avoids _) fun _ _ => avoids_ok) fun _ _ => ?_
    refine avoids_bind (avoids_bind (maxAtoms_avoids _) fun _ _ => avoids_ok) fun _ _ => ?_
    split
    next => exact avoids_ok
    next => exact avoids_error (by simp)

theorem decomposeConstraint_avoids (constraint : UniverseConstraint) :
    Avoids .unsatisfiableUniverseConstraints (decomposeConstraint constraint) := by
  simp only [decomposeConstraint]
  split
  next => exact decomposeLeConstraint_avoids _ _
  next =>
    split
    next => exact avoids_ok
    next =>
      exact avoids_bind (decomposeLeConstraint_avoids _ _) fun _ _ =>
        avoids_bind (decomposeLeConstraint_avoids _ _) fun _ _ => avoids_ok

theorem atomBaseIndex_avoids (params : List String) (base : AtomBase) :
    Avoids .unsatisfiableUniverseConstraints (atomBaseIndex params base) := by
  cases base with
  | zero => exact avoids_ok
  | param name =>
    simp only [atomBaseIndex]
    cases params.findIdx? (· = name) with
    | none => exact avoids_error (by simp)
    | some index => exact avoids_ok

theorem addConstraint_avoids (params : List String) (state : Nat × DifferenceBounds.Table)
    (constraint : UniverseConstraint) :
    Avoids .unsatisfiableUniverseConstraints (addConstraint params state constraint) := by
  refine avoids_bind (decomposeConstraint_avoids constraint) fun inequalities _ => ?_
  refine avoids_bind (avoids_ensure nofun) fun _ _ => avoids_bind ?_ fun _ _ => avoids_ok
  refine avoids_foldEach (fun table inequality _ => ?_) state.2
  exact avoids_bind (atomBaseIndex_avoids params _) fun _ _ =>
    avoids_bind (atomBaseIndex_avoids params _) fun _ _ =>
      avoids_bind (offsetBound_avoids _) fun _ _ =>
        avoids_bind (offsetBound_avoids _) fun _ _ => avoids_ok

/-- Only closing reports a list as unsatisfiable. -/
theorem openTable_avoids (params : List String) (constraints : List UniverseConstraint) :
    Avoids .unsatisfiableUniverseConstraints (openTable params constraints) :=
  avoids_bind (validateUniverseParams_avoids params) fun params _ =>
    avoids_bind (ensureUniverseConstraintsWf_avoids params constraints) fun _ _ =>
      avoids_bind (avoids_ensure nofun) fun _ _ =>
        avoids_bind (avoids_foldEach (fun state c _ => addConstraint_avoids params state c) _)
          fun _ _ => avoids_ok

theorem fromParams_avoids (params : List String) :
    Avoids .unsatisfiableUniverseConstraints (UniverseContext.fromParams params) :=
  avoids_bind (validateUniverseParams_avoids params) fun _ _ =>
    avoids_bind (avoids_ensure nofun) fun _ _ =>
      avoids_bind (avoids_ensure nofun) fun _ _ => avoids_ok

end Avoids

/-- A list is reported as unsatisfiable when closing its table finds a negative cycle. -/
theorem new_unsatisfiable_iff :
    UniverseContext.new params constraints = .error .unsatisfiableUniverseConstraints ↔
      ∃ table, openTable params constraints = .ok table ∧
        hasNegativeDiagonal (close addI128 table) = true := by
  cases empty : constraints.isEmpty with
  | true =>
    obtain rfl := List.isEmpty_iff.mp empty
    constructor
    · exact fun failed => absurd failed (fromParams_avoids params)
    · rintro ⟨table, opens, negative⟩
      obtain ⟨added, opened⟩ := openTable_opened opens
      have none := opened.decomposes
      cases none
      exact absurd ⟨fun _ => 0, nofun⟩ (opened.rejected_iff.mp negative)
  | false =>
    rw [new_of_nonempty empty]
    cases opens : openTable params constraints with
    | error e =>
      have other : e ≠ .unsatisfiableUniverseConstraints :=
        fun same => openTable_avoids params constraints (same ▸ opens)
      simp [bind, Except.bind, other]
    | ok table =>
      cases negative : hasNegativeDiagonal (close addI128 table) with
      | true => simp [bind, Except.bind, Result.ensure, negative]
      | false => simp [bind, Except.bind, Result.ensure, negative]

/-- A list that reaches closing is rejected exactly when no valuation satisfies what is
    assumed of it. -/
theorem new_unsatisfiable_iff_assumed :
    UniverseContext.new params constraints = .error .unsatisfiableUniverseConstraints ↔
      (∃ table, openTable params constraints = .ok table) ∧
        ¬∃ ρ, ∀ c ∈ constraints, c.Assumed ρ := by
  rw [new_unsatisfiable_iff]
  constructor
  · rintro ⟨table, opens, negative⟩
    obtain ⟨added, opened⟩ := openTable_opened opens
    refine ⟨⟨table, opens⟩, ?_⟩
    rintro ⟨ρ, assumed⟩
    exact opened.rejected_iff.mp negative
      ⟨ρ, (opened.decomposes.holds_iff opened.canonical ρ).mpr assumed⟩
  · rintro ⟨⟨table, opens⟩, unsatisfiable⟩
    obtain ⟨added, opened⟩ := openTable_opened opens
    refine ⟨table, opens, opened.rejected_iff.mpr ?_⟩
    rintro ⟨ρ, holds⟩
    exact unsatisfiable ⟨ρ, (opened.decomposes.holds_iff opened.canonical ρ).mp holds⟩

theorem withLowerBounds_closed (paramCount : Nat) :
    Closed (paramCount + 1) (withLowerBounds paramCount) := by
  have entry (i j : Nat) (hi : i < paramCount + 1) (hj : j < paramCount + 1) :
      bound (withLowerBounds paramCount) i j = if i = j ∨ j = 0 then 0 else ⊤ := by
    rw [bound, get_withLowerBounds]
    by_cases edge : i = j ∨ j = 0
    · rw [if_pos ⟨hi, hj, edge⟩, if_pos edge]
      rfl
    · rw [if_neg fun h => edge h.2.2, if_neg edge]
  refine ⟨withLowerBounds_square paramCount, fun i hi => ?_, fun i hi m hm j hj => ?_⟩
  · rw [entry i i hi hi, if_pos (.inl rfl)]
  · rw [entry i j hi hj, entry i m hi hm, entry m j hm hj]
    by_cases first : i = m ∨ m = 0 <;> by_cases second : m = j ∨ j = 0
    · have composed : i = j ∨ j = 0 := by omega
      simp [first, second, composed]
    · simp [second]
    · simp [first]
    · simp [first]

/-- The table of an accepted context is closed under composition of bounds. -/
theorem new_closed
    {context : UniverseContext} (h : UniverseContext.new params constraints = .ok context) :
    Closed (params.length + 1) context.closure ∧ Grounded context.closure := by
  cases empty : constraints.isEmpty with
  | true =>
    obtain rfl := List.isEmpty_iff.mp empty
    change UniverseContext.fromParams params = .ok context at h
    simp only [UniverseContext.fromParams, Result.bind_eq_ok, Except.ok.injEq] at h
    obtain ⟨validated, hvalid, _, _, _, _, rfl⟩ := h
    obtain ⟨rfl, _⟩ := validateUniverseParams_spec hvalid
    exact ⟨withLowerBounds_closed _, withLowerBounds_grounded _⟩
  | false =>
    rw [new_of_nonempty empty] at h
    simp only [Result.bind_eq_ok, Result.ensure_eq_ok, Except.ok.injEq] at h
    obtain ⟨table, opens, _, accepted, rfl⟩ := h
    obtain ⟨added, opened⟩ := openTable_opened opens
    exact ⟨opened.closed (by simpa using accepted), opened.grounded_close⟩

/-! ### Entailment between atoms -/

/-- A bound that all valuations of the recorded inequalities meet is in the table. -/
theorem bound_le_of_holds {closure : DifferenceBounds.Table}
    (closed : Closed (params.length + 1) closure) (grounded : Grounded closure)
    {added : List AtomInequality} (recorded : ∀ q ∈ added, Recorded params closure q)
    {lhs rhs : AtomBase} {source target : Nat} (hsource : atomBaseIndex params rhs = .ok source)
    (htarget : atomBaseIndex params lhs = .ok target) {t : Int}
    (holds : ∀ ρ, (∀ q ∈ added, q.Holds ρ) → (lhs.value ρ : Int) ≤ rhs.value ρ + t) :
    bound closure source target ≤ t := by
  by_contra above
  -- then the next larger difference is attained
  have next : ((t + 1 : Int) : WithTop Int) ≤ bound closure source target := by
    cases edge : get closure source target with
    | none =>
      rw [bound_of_none edge]
      exact le_top
    | some w =>
      rw [bound_of_get edge] at above ⊢
      have larger : ¬w ≤ t := fun le => above (WithTop.coe_le_coe.mpr le)
      exact WithTop.coe_le_coe.mpr (by omega)
  obtain ⟨val, hsat, apart⟩ := exists_sat_of_le_bound closed grounded
    (atomBaseIndex_spec htarget).1 (atomBaseIndex_spec hsource).1 next
  have length := closed.square.1
  have below := holds (relativeValue params val) fun q mem =>
    relativeValue_holds length grounded hsat (recorded q mem)
  rw [relativeValue_base length grounded hsat hsource,
    relativeValue_base length grounded hsat htarget] at below
  omega

theorem closureEntails_iff {context : UniverseContext} {source target : Nat} {t : Int} :
    context.closureEntails source target t = true ↔ bound context.closure source target ≤ t := by
  unfold UniverseContext.closureEntails bound
  split
  next none => simp [none]
  next w edge => simp [edge, WithTop.coe_le_coe]

theorem exists_atomBaseIndex {atom : Atom}
    (h : ensureLevelWf params atom.level = .ok ()) : ∃ i, atomBaseIndex params atom.base = .ok i := by
  obtain ⟨base, offset⟩ := atom
  have baseWf : ensureLevelWf params (Atom.level ⟨base, 0⟩) = .ok () := by
    simp only [Atom.level] at h
    induction offset with
    | zero => exact h
    | succ offset ih => exact ih h
  cases base with
  | zero => exact ⟨0, rfl⟩
  | param name =>
    simp only [Atom.level, Nat.repeat, ensureLevelWf, Result.bind_eq_ok, Result.ensure_eq_ok] at baseWf
    obtain ⟨_, _, known⟩ := baseWf
    obtain ⟨index, found⟩ : ∃ index, params.findIdx? (· = name) = some index := by
      rw [← Option.isSome_iff_exists, List.findIdx?_isSome]
      simpa using known
    exact ⟨index + 1, by simp [atomBaseIndex, found, Result.okOr, Except.map]⟩

theorem offsetBound_of_lt {atom : Atom} (h : atom.offset < 2 ^ 63) :
    offsetBound atom = .ok atom.offset := if_pos h

/-- Between two atoms of an accepted context an answer is always reached, and it is the truth
    about all valuations of what is assumed. -/
theorem entailsLevelLe_atoms_exact
    {context : UniverseContext} (h : UniverseContext.new params constraints = .ok context)
    {lhs rhs : Atom} (lhsWf : ensureLevelWf params lhs.level = .ok ())
    (rhsWf : ensureLevelWf params rhs.level = .ok ()) (lhsSmall : lhs.offset < 2 ^ 63)
    (rhsSmall : rhs.offset < 2 ^ 63) :
    ∃ answer, context.entailsLevelLe lhs.level rhs.level = .ok answer ∧ (answer = true ↔
      ∀ ρ, (∀ c ∈ constraints, c.Assumed ρ) → lhs.level.eval ρ ≤ rhs.level.eval ρ) := by
  obtain ⟨added, accepted⟩ := new_accepted h
  obtain ⟨closed, grounded⟩ := new_closed h
  obtain ⟨target, htarget⟩ := exists_atomBaseIndex lhsWf
  obtain ⟨source, hsource⟩ := exists_atomBaseIndex rhsWf
  rw [← accepted.params_eq] at lhsWf rhsWf htarget hsource
  refine ⟨_, entailsLevelLe_atoms lhsWf rhsWf htarget hsource (offsetBound_of_lt lhsSmall)
    (offsetBound_of_lt rhsSmall), ?_⟩
  rw [accepted.params_eq] at htarget hsource
  constructor
  · intro yes ρ assumed
    have answer := entailsLevelLe_atoms lhsWf rhsWf (accepted.params_eq ▸ htarget)
      (accepted.params_eq ▸ hsource) (offsetBound_of_lt lhsSmall) (offsetBound_of_lt rhsSmall)
    rw [yes] at answer
    exact entailsLevelLe_sound accepted assumed answer
  · intro holds
    rw [Bool.or_eq_true, closureEntails_iff]
    refine .inr (bound_le_of_holds closed grounded accepted.recorded hsource htarget ?_)
    intro ρ recorded
    have le := holds ρ ((accepted.decomposes.holds_iff accepted.canonical ρ).mp recorded)
    rw [Atom.level_eval, Atom.level_eval, Atom.value, Atom.value] at le
    omega

/-! ### Constraints without `imax` -/

def UniverseConstraint.imaxFree (constraint : UniverseConstraint) : Bool :=
  constraint.lhs.imaxFree && constraint.rhs.imaxFree

theorem assumed_iff_holds {constraint : UniverseConstraint} (free : constraint.imaxFree = true)
    (ρ : String → Nat) : constraint.Assumed ρ ↔ constraint.Holds ρ := by
  obtain ⟨lhs, relation, rhs⟩ := constraint
  obtain ⟨left, _⟩ := Bool.and_eq_true_iff.mp free
  cases relation with
  | eq => rfl
  | le =>
    simp only [UniverseConstraint.Assumed, UniverseConstraint.Holds, maxEval_of_imaxFree left ρ]
    constructor
    · rintro (rfl | le)
      · exact Nat.le_refl _
      · exact le
    · exact .inr

/-- Without `imax` in the declared constraints, closing rejects exactly the lists without a
    satisfying valuation, an accepted list has one, and entailment between two atoms over the
    parameters is answered, with the truth about all satisfying valuations. -/
theorem universeContext_exact (params : List String) (constraints : List UniverseConstraint)
    (free : ∀ c ∈ constraints, c.imaxFree = true) :
    (UniverseContext.new params constraints = .error .unsatisfiableUniverseConstraints ↔
      (∃ table, openTable params constraints = .ok table) ∧ ¬∃ ρ, Satisfies ρ constraints) ∧
    ∀ context, UniverseContext.new params constraints = .ok context →
      (∃ ρ, Satisfies ρ constraints) ∧
      ∀ lhs rhs : Atom, ensureLevelWf params lhs.level = .ok () →
        ensureLevelWf params rhs.level = .ok () → lhs.offset < 2 ^ 63 → rhs.offset < 2 ^ 63 →
        ∃ answer, context.entailsLevelLe lhs.level rhs.level = .ok answer ∧ (answer = true ↔
          ∀ ρ, Satisfies ρ constraints → lhs.level.eval ρ ≤ rhs.level.eval ρ) := by
  have same (ρ : String → Nat) : (∀ c ∈ constraints, c.Assumed ρ) ↔ Satisfies ρ constraints :=
    forall₂_congr fun c mem => assumed_iff_holds (free c mem) ρ
  refine ⟨by simp only [new_unsatisfiable_iff_assumed, same], fun context built => ⟨?_, ?_⟩⟩
  · obtain ⟨added, accepted⟩ := new_accepted built
    obtain ⟨closed, grounded⟩ := new_closed built
    have ground := (closed.diagonal 0 (Nat.succ_pos _)).ge
    obtain ⟨val, hsat, _⟩ := exists_sat_of_le_bound closed grounded
      (Nat.succ_pos _) (Nat.succ_pos _) ground
    refine ⟨relativeValue params val, (same _).mp ?_⟩
    refine (accepted.decomposes.holds_iff accepted.canonical _).mp fun q mem => ?_
    exact relativeValue_holds closed.square.1 grounded hsat (accepted.recorded q mem)
  · intro lhs rhs lhsWf rhsWf lhsSmall rhsSmall
    simpa only [same] using entailsLevelLe_atoms_exact built lhsWf rhsWf lhsSmall rhsSmall

/-- With `u + 1 <= v`, it is entailed that `u + 1 <= v` and not that `v <= u + 1`; with
    `v <= u` as well, no context is built. -/
theorem universeContext_exact_at_order :
    ((∃ ρ : String → Nat, ρ "u" + 1 ≤ ρ "v") ∧
      (∀ context, UniverseContext.new ["u", "v"] [⟨.succ (.param "u"), .le, .param "v"⟩] = .ok context →
        context.entailsLevelLe (.param "v") (.succ (.param "u")) = .ok false)) ∧
    ¬∃ ρ : String → Nat, ρ "u" + 1 ≤ ρ "v" ∧ ρ "v" ≤ ρ "u" := by
  refine ⟨?_, ?_⟩
  · obtain ⟨_, accepted⟩ := universeContext_exact ["u", "v"] [⟨.succ (.param "u"), .le, .param "v"⟩]
      (by decide)
    have built : UniverseContext.new ["u", "v"] [⟨.succ (.param "u"), .le, .param "v"⟩] = .ok
        ⟨["u", "v"], [⟨.succ (.param "u"), .le, .param "v"⟩],
          [[some 0, none, none], [some 0, some 0, none], [some (-1), some (-1), some 0]]⟩ := by
      decide +kernel
    obtain ⟨⟨ρ, satisfied⟩, _⟩ := accepted _ built
    refine ⟨⟨ρ, satisfied _ (List.mem_singleton.mpr rfl)⟩, fun context other => ?_⟩
    obtain ⟨answer, answered, truth⟩ := (accepted context other).2 ⟨.param "v", 0⟩ ⟨.param "u", 1⟩
      (by decide +kernel) (by decide +kernel) (by decide) (by decide)
    -- at `u = 0`, `v = 2` the constraint holds and the inequality does not
    let apart (name : String) : Nat := if name = "u" then 0 else 2
    cases answer with
    | false => exact answered
    | true =>
      have le := truth.mp rfl apart fun c mem => by
        obtain rfl := List.mem_singleton.mp mem
        decide +kernel
      exact absurd le (by decide +kernel)
  · obtain ⟨rejected, _⟩ := universeContext_exact ["u", "v"]
      [⟨.succ (.param "u"), .le, .param "v"⟩, ⟨.param "v", .le, .param "u"⟩] (by decide)
    rintro ⟨ρ, first, second⟩
    refine (rejected.mp (by decide +kernel)).2 ⟨ρ, ?_⟩
    intro c mem
    rcases List.mem_pair.mp mem with rfl | rfl
    · exact first
    · exact second

end NpaCore.Kernel
