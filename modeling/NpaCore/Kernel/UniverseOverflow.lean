import NpaCore.Lib.NestedWalks
import NpaCore.Kernel.UniverseCompleteness

/-!
# Sums of `close` and `i128`

`UniverseConstraintClosure::close` adds bounds without a check. On tables that it rejects the
sums can triple with each node, and with many parameters they leave the range of `i128`.

## Main results

`close_representable_iff`: the sums are representable exactly when no nested walk through the
edges weighs less than `-2 ^ 127`.
`close_representable_of_few`, `close_representable_of_satisfiable`: up to 39 parameters, or when
some valuation satisfies the list, they always are.
`close_not_representable`: with 64 parameters they need not be.
-/

namespace NpaCore.Kernel

open NpaCore.Level NpaCore.DifferenceBounds

/-- The values of `i128`. -/
def Representable (s : Int) : Prop := -2 ^ 127 ≤ s ∧ s < 2 ^ 127

instance (s : Int) : Decidable (Representable s) := inferInstanceAs (Decidable (_ ∧ _))

theorem addI128_of_representable {a b : Int} (h : Representable (a + b)) : addI128 a b = a + b := by
  obtain ⟨low, high⟩ := h
  exact Int.bmod_eq_of_le_mul_two (by omega) (by omega)

section Opened

variable {params : List String} {constraints : List UniverseConstraint}
  {table : DifferenceBounds.Table} (opens : openTable params constraints = .ok table)
include opens

/-- The sums only double with each node, so they never exceed the largest value. -/
theorem closeSums_lt : ∀ s ∈ closeSums (· + ·) table, s < 2 ^ 127 := by
  obtain ⟨added, opened⟩ := openTable_opened opens
  intro s mem
  calc s ≤ weightLimit * 2 ^ (params.length + 1 - 1) := closeSums_le opened.start s mem
    _ ≤ weightLimit * 2 ^ 64 :=
        Int.mul_le_mul_of_nonneg_left (pow_le_pow_right₀ (by decide) opened.few) (by decide)
    _ < 2 ^ 127 := by decide

/-- Every sum that `close` forms is representable exactly when no nested walk through the
    edges of the table is too light. -/
theorem close_representable_iff : (∀ s ∈ closeSums addI128 table, Representable s) ↔
    ∀ i j w, NestedWalk table (params.length + 1) i j w → -2 ^ 127 ≤ w := by
  obtain ⟨added, opened⟩ := openTable_opened opens
  have start := opened.start
  have entries (i j : Nat) (w : Int) (entry : get table i j = some w) : -2 ^ 127 ≤ w := by
    have small := (start.within i j w entry).1
    simp only [weightLimit] at small
    omega
  rw [closeSums_fit (fun _ _ => addI128_of_representable), ← closeSums_ge_iff start.square entries]
  exact forall₂_congr fun s mem => and_iff_left (closeSums_lt opens s mem)

/-- The closing of a list over at most 39 parameters stays in `i128`, whatever it says: the weight
    of a nested walk can only triple with each node. -/
theorem close_representable_of_few (few : params.length ≤ 39) :
    ∀ s ∈ closeSums addI128 table, Representable s := by
  obtain ⟨added, opened⟩ := openTable_opened opens
  have start := opened.start
  have most : weightLimit * 3 ^ (params.length + 1) ≤ weightLimit * 3 ^ 40 :=
    Int.mul_le_mul_of_nonneg_left (pow_le_pow_right₀ (by decide) (Nat.succ_le_succ few)) (by decide)
  have fits : weightLimit * 3 ^ 40 ≤ 2 ^ 127 := by decide
  have entries (i j : Nat) (w : Int) (entry : get table i j = some w) : -2 ^ 127 ≤ w := by
    have small := (start.within i j w entry).1
    simp only [weightLimit] at small
    omega
  have walks (i j : Nat) (w : Int) (walk : NestedWalk table (params.length + 1) i j w) :
      -2 ^ 127 ≤ w := by
    have heavy := walk.weight_ge start.limit_nonneg start.within
    omega
  refine (closeSums_fit fun _ _ => addI128_of_representable).mpr fun s mem => ?_
  exact ⟨(closeSums_ge_iff start.square entries).mpr walks s mem, closeSums_lt opens s mem⟩

end Opened

/-- `u + 1 <= u` is over one parameter. -/
theorem close_representable_of_few_at_cycle :
    ["u"].length ≤ 39 ∧
      ∀ s ∈ closeSums addI128 [[some 0, none], [some 0, some (-1)]], Representable s := by
  have opens : openTable ["u"] [⟨.succ (.param "u"), .le, .param "u"⟩] =
      .ok [[some 0, none], [some 0, some (-1)]] := by
    decide +kernel
  exact ⟨by decide, close_representable_of_few opens (by decide)⟩

/-- With `u + 1 <= u` the closing meets a negative cycle, and all walks stay light enough. -/
theorem close_representable_iff_at_cycle :
    (∀ s ∈ closeSums addI128 [[some 0, none], [some 0, some (-1)]], Representable s) ∧
      ∀ i j w, NestedWalk [[some 0, none], [some 0, some (-1)]] 2 i j w → -2 ^ 127 ≤ w := by
  have opens : openTable ["u"] [⟨.succ (.param "u"), .le, .param "u"⟩] =
      .ok [[some 0, none], [some 0, some (-1)]] := by
    decide +kernel
  have small : ∀ s ∈ closeSums addI128 [[some 0, none], [some 0, some (-1)]], Representable s := by
    decide +kernel
  exact ⟨small, (close_representable_iff opens).mp small⟩

/-! ### Inequalities between atoms as constraints -/

def AtomInequality.constraint (inequality : AtomInequality) : UniverseConstraint :=
  ⟨inequality.lhs.level, .le, inequality.rhs.level⟩

/-- What the checks before closing ask of an inequality between atoms. -/
structure AtomInequality.Supported (params : List String) (inequality : AtomInequality) : Prop where
  differ : inequality.lhs.level ≠ inequality.rhs.level
  lhs_small : inequality.lhs.offset < 2 ^ 63
  rhs_small : inequality.rhs.offset < 2 ^ 63
  lhs_known : ∃ i, atomBaseIndex params inequality.lhs.base = .ok i
  rhs_known : ∃ i, atomBaseIndex params inequality.rhs.base = .ok i

theorem decomposeConstraint_atoms {params : List String} {inequality : AtomInequality}
    (supported : inequality.Supported params) :
    decomposeConstraint inequality.constraint = .ok [inequality] := by
  obtain ⟨_, lhsAtoms⟩ := atoms_of_level (offsetBound_of_lt supported.lhs_small)
  obtain ⟨rhsAtoms, _⟩ := atoms_of_level (offsetBound_of_lt supported.rhs_small)
  have differ : levelEqStackSafe inequality.lhs.level inequality.rhs.level = false := by
    rw [Bool.eq_false_iff, Ne, levelEqStackSafe_iff]
    exact supported.differ
  simp [decomposeConstraint, normalizeConstraint, AtomInequality.constraint, decomposeLeConstraint,
    Atom.level_normal, differ, lhsAtoms, rhsAtoms, bind, Except.bind]

theorem addConstraints_atoms {params : List String} {inequalities : List AtomInequality}
    (supported : ∀ q ∈ inequalities, q.Supported params) {state : Nat × DifferenceBounds.Table}
    (few : state.1 + inequalities.length ≤ maxUniverseAtomInequalities) :
    ∃ next, Result.foldEach (inequalities.map AtomInequality.constraint) state
      (addConstraint params) = .ok next := by
  induction inequalities generalizing state with
  | nil => exact ⟨state, rfl⟩
  | cons first rest ih =>
    obtain ⟨head, tail⟩ := List.forall_mem_cons.mp supported
    obtain ⟨target, htarget⟩ := head.lhs_known
    obtain ⟨source, hsource⟩ := head.rhs_known
    rw [List.length_cons] at few
    have room : state.1 + 1 ≤ maxUniverseAtomInequalities := by omega
    have step : addConstraint params state first.constraint = .ok (state.1 + 1,
        addEdge state.2 source target (first.rhs.offset - first.lhs.offset)) := by
      simp [addConstraint, decomposeConstraint_atoms head, ensureUniverseEdgeLimit, Result.ensure,
        room, Result.foldEach, addInequality, hsource, htarget, offsetBound_of_lt head.lhs_small,
        offsetBound_of_lt head.rhs_small, bind, Except.bind]
    rw [List.map_cons, Result.foldEach, step]
    exact ih tail (by simp only; omega)

theorem openTable_atoms {params : List String} {inequalities : List AtomInequality}
    (valid : validateUniverseParams params = .ok params)
    (nodes : ensureUniverseNodeLimit params.length = .ok ())
    (supported : ∀ q ∈ inequalities, q.Supported params)
    (ordered : ensureConstraintOrder (inequalities.map AtomInequality.constraint) = .ok ())
    (few : params.length + inequalities.length ≤ maxUniverseAtomInequalities) :
    ∃ table, openTable params (inequalities.map AtomInequality.constraint) = .ok table := by
  obtain ⟨_, resolved⟩ := validateUniverseParams_spec valid
  have canonical {atom : Atom} (known : ∃ i, atomBaseIndex params atom.base = .ok i) :
      ensureCanonicalLevel params atom.level = .ok () := by
    obtain ⟨i, known⟩ := known
    simp only [ensureCanonicalLevel, Result.bind_eq_ok, Result.ensure_eq_ok, Atom.level_normal,
      levelEqStackSafe_iff]
    exact ⟨(), Atom.level_wf resolved known, trivial⟩
  have wf : ensureUniverseConstraintsWf params
      (inequalities.map AtomInequality.constraint) = .ok () := by
    simp only [ensureUniverseConstraintsWf, Result.bind_eq_ok, Result.forEach_eq_ok]
    refine ⟨(), fun c mem => ?_, ordered⟩
    obtain ⟨q, hq, rfl⟩ := List.mem_map.mp mem
    exact ⟨(), canonical (supported q hq).lhs_known, canonical (supported q hq).rhs_known⟩
  have start : (params.length, withLowerBounds params.length).1 + inequalities.length ≤
      maxUniverseAtomInequalities := few
  obtain ⟨next, added⟩ := addConstraints_atoms supported start
  exact ⟨next.2, by simp only [openTable, valid, wf, nodes, added, bind, Except.bind]⟩

/-! ### A negative cycle at the node of zero -/

section Growth

variable {p : Nat} {d : DifferenceBounds.Table} (square : Square (p + 1) d) (grounded : Grounded d)
  {a : Int} (ground : bound d 0 0 ≤ ((-a : Int) : WithTop Int))
  (edges : ∀ j < p + 1, bound d 0 j ≤ 0)
include square grounded ground edges

/-- The first phase spreads the cycle, and each later one triples it for the rows after its
    node. -/
theorem bound_le_triples {k : Nat} (hk : k < p) {i j : Nat} (after : k < i) (hi : i < p + 1)
    (hj : j < p + 1) :
    bound (afterPhases d (k + 1)) i j ≤ ((-(a * 3 ^ k) : Int) : WithTop Int) := by
  induction k generalizing i j with
  | zero =>
    have toGround := grounded.bound_ground (square.1.symm ▸ hi)
    rw [bound_afterPhases_succ square (Nat.succ_pos p) hi hj, pow_zero, mul_one, afterPhases_zero,
      rowAt, if_neg (Nat.not_le_of_lt after)]
    calc min (bound d i j) (bound d i 0 + min (bound d 0 j) (bound d 0 0 + bound d 0 j))
        ≤ bound d i 0 + (bound d 0 0 + bound d 0 j) :=
          (min_le_right _ _).trans (add_le_add le_rfl (min_le_right _ _))
      _ ≤ 0 + (((-a : Int) : WithTop Int) + 0) :=
          add_le_add toGround (add_le_add ground (edges j hj))
      _ = ((-a : Int) : WithTop Int) := by rw [add_zero, zero_add]
  | succ k ih =>
    have earlier := Nat.lt_of_succ_lt hk
    have hkp : k + 1 < p + 1 := Nat.lt_succ_of_lt hk
    have into := ih earlier (Nat.lt_of_succ_lt after) hi hkp
    have loop := ih earlier (Nat.lt_succ_self k) hkp hkp
    have out := ih earlier (Nat.lt_succ_self k) hkp hj
    rw [bound_afterPhases_succ square hkp hi hj, rowAt, if_neg (Nat.not_le_of_lt after)]
    have triple : -(a * 3 ^ (k + 1)) = -(a * 3 ^ k) + (-(a * 3 ^ k) + -(a * 3 ^ k)) := by
      rw [pow_succ, ← mul_assoc]
      omega
    rw [triple, WithTop.coe_add, WithTop.coe_add]
    exact (min_le_right _ _).trans
      (add_le_add into ((min_le_right _ _).trans (add_le_add loop out)))

/-- The last phase adds the diagonal to itself. -/
theorem exists_sum_le {k : Nat} (hk : k + 1 = p) :
    ∃ s ∈ closeSums (· + ·) d, s ≤ -(2 * (a * 3 ^ k)) := by
  subst hk
  have inside : k + 1 < k + 1 + 1 := Nat.lt_succ_self (k + 1)
  have light := bound_le_triples square grounded ground edges (Nat.lt_succ_self k)
    (Nat.lt_succ_self k) inside inside
  obtain ⟨v, entry⟩ := WithTop.ne_top_iff_exists.mp (ne_top_of_le_ne_top WithTop.coe_ne_top light)
  rw [← entry] at light
  have light := WithTop.coe_le_coe.mp light
  refine ⟨v + v, (mem_closeSums square).mpr ⟨k + 1, inside, k + 1, inside, k + 1, inside, ?_⟩, by omega⟩
  rw [rowAt, if_pos le_rfl, ← entry, WithTop.coe_add]

end Growth

/-! ### A list whose closing overflows -/

/-- The names `aa`, `ab`, … `hh`. -/
def manyParams : List String :=
  ['a', 'b', 'c', 'd', 'e', 'f', 'g', 'h'].flatMap fun first =>
    ['a', 'b', 'c', 'd', 'e', 'f', 'g', 'h'].map fun second => String.ofList [first, second]

/-- `offset <= 0`, and `u <= 0` for each parameter. -/
def cycleAtZero (offset : Nat) : List AtomInequality :=
  ⟨⟨.zero, offset⟩, ⟨.zero, 0⟩⟩ :: manyParams.map fun name => ⟨⟨.param name, 0⟩, ⟨.zero, 0⟩⟩

theorem manyParams_length : manyParams.length = 64 := by decide +kernel

theorem manyParams_index (name : String) (mem : name ∈ manyParams) :
    ∃ i, atomBaseIndex manyParams (.param name) = .ok i := by
  have wf : ∀ name ∈ manyParams,
      ensureLevelWf manyParams (Atom.level ⟨.param name, 0⟩) = .ok () := by
    decide +kernel
  exact exists_atomBaseIndex (wf name mem)

theorem manyParams_node : ∀ j < 65, j ≠ 0 →
    ∃ name ∈ manyParams, atomBaseIndex manyParams (.param name) = .ok j := by
  decide +kernel

theorem cycleAtZero_supported {offset : Nat} (positive : 0 < offset) (small : offset < 2 ^ 63) :
    ∀ q ∈ cycleAtZero offset, q.Supported manyParams := by
  obtain ⟨m, rfl⟩ := Nat.exists_eq_succ_of_ne_zero positive.ne'
  have zeroSmall : 0 < 2 ^ 63 := by decide
  intro q mem
  rcases List.mem_cons.mp mem with rfl | mem
  · exact ⟨nofun, small, zeroSmall, ⟨0, rfl⟩, ⟨0, rfl⟩⟩
  · obtain ⟨name, hname, rfl⟩ := List.mem_map.mp mem
    exact ⟨nofun, zeroSmall, zeroSmall, manyParams_index name hname, ⟨0, rfl⟩⟩

theorem cycleAtZero_opens {offset : Nat} (positive : 0 < offset) (small : offset < 2 ^ 63) :
    ∃ table, openTable manyParams ((cycleAtZero offset).map AtomInequality.constraint) = .ok table := by
  refine openTable_atoms (by decide +kernel) (by decide +kernel)
    (cycleAtZero_supported positive small) ?_ ?_
  · obtain ⟨m, rfl⟩ := Nat.exists_eq_succ_of_ne_zero positive.ne'
    have params : ensureConstraintOrder (manyParams.map fun name =>
        ⟨.param name, .le, .zero⟩) = .ok () := by
      decide +kernel
    have split : manyParams = "aa" :: manyParams.tail := by decide +kernel
    rw [cycleAtZero, List.map_cons, List.map_map]
    rw [split, List.map_cons] at params ⊢
    -- a successor comes before every parameter, so what is left is the order of the names
    exact params
  · rw [cycleAtZero, List.length_cons, List.length_map, manyParams_length]
    decide

theorem cycleAtZero_recorded {offset : Nat} (positive : 0 < offset) (small : offset < 2 ^ 63)
    {table : DifferenceBounds.Table} {added : List AtomInequality}
    (opened : Opened manyParams ((cycleAtZero offset).map AtomInequality.constraint) table added) :
    ∀ q ∈ cycleAtZero offset, Recorded manyParams table q := by
  intro q mem
  obtain ⟨inequalities, decomposed, sub⟩ :=
    opened.decomposes.of_mem (List.mem_map_of_mem mem)
  rw [decomposeConstraint_atoms (cycleAtZero_supported positive small q mem)] at decomposed
  cases decomposed
  exact opened.extension.recorded (withLowerBounds_square _) q (sub q List.mem_cons_self)

/-- With 64 parameters at most zero and `2 ^ 27 <= 0`, the phases reach `-2 ^ 28 * 3 ^ 63`. -/
theorem close_not_representable :
    ¬ ∀ params constraints table, openTable params constraints = .ok table →
      ∀ s ∈ closeSums addI128 table, Representable s := by
  intro always
  have positive : 0 < 2 ^ 27 := by decide
  have small : 2 ^ 27 < 2 ^ 63 := by decide
  obtain ⟨table, opens⟩ := cycleAtZero_opens positive small
  obtain ⟨added, opened⟩ := openTable_opened opens
  have recorded := cycleAtZero_recorded positive small opened
  have start := opened.start
  rw [manyParams_length] at start
  have ground : bound table 0 0 ≤ ((-2 ^ 27 : Int) : WithTop Int) := by
    obtain ⟨_, _, w, ⟨⟩, ⟨⟩, _, _, edge, le⟩ := recorded _ List.mem_cons_self
    rw [bound_of_get edge]
    exact WithTop.coe_le_coe.mpr le
  have edges (j : Nat) (hj : j < 65) : bound table 0 j ≤ 0 := by
    by_cases zero : j = 0
    · subst zero
      exact ground.trans (WithTop.coe_le_coe.mpr (by decide))
    · obtain ⟨name, hname, node⟩ := manyParams_node j hj zero
      obtain ⟨_, target, w, ⟨⟩, htarget, _, _, edge, le⟩ :=
        recorded _ (List.mem_cons_of_mem _ (List.mem_map_of_mem hname))
      cases node.symm.trans htarget
      rw [bound_of_get edge]
      exact WithTop.coe_le_coe.mpr le
  obtain ⟨s, formed, low⟩ := exists_sum_le start.square start.grounded ground edges rfl
  have fits := (closeSums_fit fun _ _ => addI128_of_representable).mp
    (always manyParams _ table opens) s formed
  exact absurd (fits.1.trans low) (by decide)

end NpaCore.Kernel
