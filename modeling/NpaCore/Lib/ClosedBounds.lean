import Mathlib.Data.Int.ConditionallyCompleteOrder
import NpaCore.Lib.BoundPhases

/-!
# Closed tables of difference bounds

When closing leaves no negative bound on the diagonal, no phase had one, so no phase changes
the row or the column of its own node: the closed table satisfies the triangle inequality,
and every bound in it is attained by some assignment. The sums on the way at most double
with each node after the first, so a bounded addition is exact on them.

## Main results

`close_eq_exact`: an addition that is exact up to a limit closes a table exactly, unless a
negative bound on the diagonal remains, and then one remains in exact arithmetic too.
`close_closed`: the triangle inequality.
`exists_sat_of_le_bound`: in a closed table, an assignment for every difference up to a bound.
-/

namespace NpaCore.DifferenceBounds

variable {n : Nat} {d e : Table} {i j : Nat}

theorem lt_of_get (square : Square n d) {w : ℤ} (h : get d i j = some w) :
    i < n ∧ j < n := by
  have row := lt_length_of_get h
  refine ⟨square.1 ▸ row, ?_⟩
  have length := square.2 d[i] (List.getElem_mem row)
  by_contra outside
  have absent : d[i][j]? = none := List.getElem?_eq_none (by omega)
  simp [get, row, absent] at h

/-- No bound on the diagonal is negative. -/
def NoNegative (d : Table) : Prop := ∀ i w, get d i i = some w → 0 ≤ w

theorem hasNegativeDiagonal_eq_false (square : Square n d) :
    hasNegativeDiagonal d = false ↔ NoNegative d := by
  simp only [hasNegativeDiagonal, List.any_eq_false, List.mem_range]
  constructor
  · intro h i w some
    have below := h i (lt_length_of_get some)
    simpa [some] using below
  · intro h i _
    cases some : get d i i with
    | none => simp
    | some w => simpa using h i w some

theorem NoNegative.of_tightens (tightens : Tightens d e) (h : NoNegative e) : NoNegative d := by
  intro i w some
  obtain ⟨v, lower, less⟩ := tightens i i w some
  exact Int.le_trans (h i v lower) less

theorem NoNegative.bound_nonneg (h : NoNegative d) (i : Nat) : 0 ≤ bound d i i := by
  cases some : get d i i with
  | none => rw [bound_of_none some]; exact le_top
  | some w =>
    rw [bound_of_get some]
    exact WithTop.coe_le_coe.mpr (h i w some)

theorem relaxAll_tightens (add : Int → Int → Int) (d : Table) (nodes vias : List Nat) :
    Tightens d (relaxAll add d nodes vias) := by
  apply foldl_tightens
  intro d k
  exact relaxVia_tightens add d k _ _

theorem afterPhases_tightens (d : Table) (k : Nat) : Tightens d (afterPhases d k) :=
  relaxAll_tightens _ d _ _

theorem afterPhases_tightens_succ (d : Table) (k : Nat) :
    Tightens (afterPhases d k) (afterPhases d (k + 1)) := by
  rw [afterPhases_succ]
  exact relaxVia_tightens _ _ _ _ _

theorem afterPhases_tightens_of_le {k m : Nat} (le : k ≤ m) :
    Tightens (afterPhases d k) (afterPhases d m) := by
  induction m, le using Nat.le_induction with
  | base => exact Tightens.refl _
  | succ m _ ih => exact ih.trans (afterPhases_tightens_succ d m)

theorem Grounded.bound_diagonal (h : Grounded d) {i : Nat} (hi : i < d.length) :
    bound d i i ≤ 0 := by
  obtain ⟨⟨w, low, some⟩, _⟩ := h i hi
  rw [bound_of_get some]
  exact WithTop.coe_le_coe.mpr low

theorem Grounded.bound_ground (h : Grounded d) {i : Nat} (hi : i < d.length) :
    bound d i 0 ≤ 0 := by
  obtain ⟨_, w, low, some⟩ := h i hi
  rw [bound_of_get some]
  exact WithTop.coe_le_coe.mpr low

theorem afterPhases_grounded (square : Square n d) (grounded : Grounded d) (k : Nat) :
    Grounded (afterPhases d k) :=
  grounded.mono (afterPhases_tightens d k) ((afterPhases_square square k).1.trans square.1.symm)

/-! ### Phases without a negative diagonal -/

/-- The bound of a node to itself is zero, so its row is the same for every source. -/
theorem rowAt_of_noNegative (grounded : Grounded d) (noNegative : NoNegative d) {k i j : Nat}
    (hk : k < d.length) : rowAt d k i j = bound d k j := by
  have zero : bound d k k = 0 :=
    le_antisymm (grounded.bound_diagonal hk) (noNegative.bound_nonneg k)
  rw [rowAt, zero, zero_add, min_self, ite_self]

theorem within_bound {limit : ℤ} (h : Within limit d) {w : ℤ} (some : bound d i j = w) :
    -limit ≤ w ∧ w ≤ limit := h i j w (bound_eq_coe.mp some)

/-- Bounds that a sum and two sides of a phase give to the next table. -/
theorem within_succ (square : Square n d) {k : Nat} (hk : k < n) {limit : ℤ}
    (here : Within limit (afterPhases d k))
    (sums : ∀ i < n, ∀ j < n, ∀ s : ℤ, (s : WithTop ℤ) =
      bound (afterPhases d k) i k + rowAt (afterPhases d k) k i j → -limit ≤ s ∧ s ≤ limit) :
    Within limit (afterPhases d (k + 1)) := by
  intro i j w some
  obtain ⟨hi, hj⟩ := lt_of_get (afterPhases_square square (k + 1)) some
  have entry := bound_of_get some
  rw [bound_afterPhases_succ square hk hi hj] at entry
  rcases min_choice (bound (afterPhases d k) i j)
    (bound (afterPhases d k) i k + rowAt (afterPhases d k) k i j) with old | new
  · exact within_bound here (old.symm.trans entry)
  · exact sums i hi j hj w (entry.symm.trans new)

/-- The sums of the first phase: bounds to the ground are at most zero, and then the bounds
    from it are not negative. -/
theorem sums_ground (square : Square n d) (grounded : Grounded d) (pos : 0 < n) {limit : ℤ}
    (hwithin : Within limit d) (noNegative : NoNegative (afterPhases d 1)) (hi : i < n)
    (hj : j < n) {s : ℤ} (sum : (s : WithTop ℤ) = bound d i 0 + rowAt d 0 i j) :
    -limit ≤ s ∧ s ≤ limit := by
  have noNegativeHere : NoNegative d := noNegative.of_tightens (afterPhases_tightens d 1)
  rw [rowAt_of_noNegative grounded noNegativeHere (square.1 ▸ pos)] at sum
  obtain ⟨a, b, toGround, fromGround, rfl⟩ := WithTop.add_eq_coe.mp sum.symm
  have low : a ≤ 0 := by
    have ground := grounded.bound_ground (square.1.symm ▸ hi)
    rw [toGround.symm] at ground
    exact WithTop.coe_le_coe.mp ground
  have high : 0 ≤ b := by
    -- the way from `j` to the ground and back is on the diagonal after the phase
    have back := bound_afterPhases_succ square pos hj hj
    rw [afterPhases_zero, rowAt_of_noNegative grounded noNegativeHere (square.1 ▸ pos)] at back
    have around : (0 : WithTop ℤ) ≤ bound d j 0 + bound d 0 j :=
      (noNegative.bound_nonneg j).trans (back ▸ min_le_right _ _)
    rw [← fromGround] at around
    have way := around.trans (add_le_add_left (grounded.bound_ground (square.1.symm ▸ hj)) _)
    rw [zero_add] at way
    exact WithTop.coe_le_coe.mp way
  have first := within_bound hwithin toGround.symm
  have second := within_bound hwithin fromGround.symm
  omega

/-- The sums of a phase without a negative diagonal. -/
theorem sums_double (square : Square n d) (grounded : Grounded d) (noNegative : NoNegative d)
    {k : Nat} (hk : k < n) {limit : ℤ} (hwithin : Within limit d) {s : ℤ}
    (sum : (s : WithTop ℤ) = bound d i k + rowAt d k i j) : -(2 * limit) ≤ s ∧ s ≤ 2 * limit := by
  rw [rowAt_of_noNegative grounded noNegative (square.1 ▸ hk)] at sum
  obtain ⟨a, b, first, second, rfl⟩ := WithTop.add_eq_coe.mp sum.symm
  have first := within_bound hwithin first.symm
  have second := within_bound hwithin second.symm
  omega

/-! ### An addition that is exact up to a limit -/

/-- A table that the loops start from: square, with a zero or negative bound of each node to
    itself and to the ground, and all bounds within a limit. -/
structure Start (n : Nat) (limit : ℤ) (d : Table) : Prop where
  square : Square n d
  grounded : Grounded d
  limit_nonneg : 0 ≤ limit
  within : Within limit d

theorem Within.mono {limit more : ℤ} (h : Within limit d) (le : limit ≤ more) : Within more d := by
  intro i j w some
  have := h i j w some
  omega

section Exact

variable {limit : ℤ} (start : Start n limit d)
include start

/-- After the first phase the bounds are still within the limit, and each later phase at most
    doubles them. -/
theorem within_afterPhases {k : Nat} (hk : k < n) (noNegative : NoNegative (afterPhases d (k + 1))) :
    Within (limit * 2 ^ k) (afterPhases d (k + 1)) := by
  obtain ⟨square, grounded, nonneg, hwithin⟩ := start
  induction k with
  | zero =>
    rw [pow_zero, mul_one]
    refine within_succ square hk hwithin fun i hi j hj s sum => ?_
    rw [afterPhases_zero] at sum
    exact sums_ground square grounded hk hwithin noNegative hi hj sum
  | succ k ih =>
    have earlier := noNegative.of_tightens (afterPhases_tightens_succ d (k + 1))
    have before := ih (Nat.lt_of_succ_lt hk) earlier
    have positive : 0 ≤ limit * 2 ^ k := mul_nonneg nonneg (pow_nonneg (by decide) k)
    rw [pow_succ, ← mul_assoc, mul_comm _ 2]
    refine within_succ square hk (before.mono (by omega)) fun i _ j _ s sum => ?_
    exact sums_double (afterPhases_square square (k + 1))
      (afterPhases_grounded square grounded (k + 1)) earlier hk before sum

/-- The sums of a phase that starts without a negative diagonal. -/
theorem sums_within {k : Nat} (hk : k < n) (noNegative : NoNegative (afterPhases d k))
    {s : ℤ} (sum : (s : WithTop ℤ) = bound (afterPhases d k) i k + rowAt (afterPhases d k) k i j) :
    -(limit * 2 ^ max (n - 1) 1) ≤ s ∧ s ≤ limit * 2 ^ max (n - 1) 1 := by
  have square := afterPhases_square start.square k
  have grounded := afterPhases_grounded start.square start.grounded k
  have grows {a : Nat} (le : a ≤ max (n - 1) 1) : limit * 2 ^ a ≤ limit * 2 ^ max (n - 1) 1 :=
    mul_le_mul_of_nonneg_left (pow_le_pow_right₀ (by decide) le) start.limit_nonneg
  cases k with
  | zero =>
    have double := sums_double square grounded noNegative hk start.within sum
    have most := grows (le_max_right (n - 1) 1)
    omega
  | succ k =>
    have before := within_afterPhases start (Nat.lt_of_succ_lt hk) noNegative
    have double := sums_double square grounded noNegative hk before sum
    have most := grows (show k + 1 ≤ max (n - 1) 1 from le_max_of_le_left (by omega))
    rw [pow_succ, ← mul_assoc] at most
    omega

variable {add : Int → Int → Int} {most : ℤ}
  (exact : ∀ a b, -most ≤ a + b → a + b ≤ most → add a b = a + b)
  (fits : limit * 2 ^ max (n - 1) 1 ≤ most)
include exact fits

theorem relaxAll_eq_exact {k : Nat} (hk : k ≤ n)
    (noNegative : NoNegative (relaxAll add d (List.range d.length) (List.range k))) :
    relaxAll add d (List.range d.length) (List.range k) = afterPhases d k := by
  induction k with
  | zero => rfl
  | succ k ih =>
    have step : relaxAll add d (List.range d.length) (List.range (k + 1)) =
        relaxVia add (relaxAll add d (List.range d.length) (List.range k)) k
          (List.range d.length) (List.range d.length) := by
      rw [List.range_succ, relaxAll, List.foldl_append]
      rfl
    rw [step] at noNegative ⊢
    have earlier := noNegative.of_tightens (relaxVia_tightens _ _ _ _ _)
    have same := ih (Nat.le_of_succ_le hk) earlier
    rw [same] at earlier ⊢
    rw [afterPhases_succ]
    refine relaxVia_congr fun a b mem => ?_
    rw [start.square.1, mem_viaSums (afterPhases_square start.square k) hk] at mem
    obtain ⟨i, _, j, _, sum⟩ := mem
    have small := sums_within start hk earlier sum
    exact exact a b (by omega) (by omega)

/-- Closing is exact as long as the result has no negative bound on the diagonal, in the
    addition used or in exact arithmetic. -/
theorem close_eq_exact (noNegative : NoNegative (close add d) ∨ NoNegative (close (· + ·) d)) :
    close add d = close (· + ·) d := by
  rcases noNegative with noNegative | noNegative
  · exact relaxAll_eq_exact start exact fits (Nat.le_of_eq start.square.1) noNegative
  · refine close_congr fun a b mem => ?_
    obtain ⟨k, hk, i, _, j, _, sum⟩ := (mem_closeSums start.square).mp mem
    have earlier : NoNegative (afterPhases d k) := by
      rw [close_eq_afterPhases, start.square.1] at noNegative
      exact noNegative.of_tightens (afterPhases_tightens_of_le hk.le)
    have small := sums_within start hk earlier sum
    exact exact a b (by omega) (by omega)

end Exact

/-! ### Assignments and edges -/

/-- What satisfies lowered bounds satisfies the bounds. -/
theorem Sat.of_tightens {val : Nat → ℤ} (tightens : Tightens d e) (h : Sat val e) : Sat val d := by
  intro i j w some
  obtain ⟨v, lower, le⟩ := tightens i j w some
  have below := h i j v lower
  omega

/-- Inside a square table an edge adds its own inequality and no other. -/
theorem sat_addEdge_iff {val : Nat → ℤ} (square : Square n d) (hi : i < n) (hj : j < n)
    (w : ℤ) : Sat val (addEdge d i j w) ↔ Sat val d ∧ val j ≤ val i + w := by
  constructor
  · intro h
    refine ⟨h.of_tightens (addEdge_tightens d i j w), ?_⟩
    obtain ⟨v, written, le⟩ := get_addEdge_self square hi hj w
    have edge := h i j v written
    omega
  · rintro ⟨h, edge⟩
    exact addEdge_sat h edge

/-! ### The triangle inequality -/

/-- Bounds compose, and a node is at distance zero from itself. -/
structure Closed (n : Nat) (d : Table) : Prop where
  square : Square n d
  diagonal : ∀ i < n, bound d i i = 0
  triangle : ∀ i < n, ∀ m < n, ∀ j < n, bound d i j ≤ bound d i m + bound d m j

section Triangle

variable (square : Square n d) (grounded : Grounded d)
include square grounded

theorem diagonal_of_noNegative (noNegative : NoNegative d) {i : Nat} (hi : i < n) :
    bound d i i = 0 :=
  le_antisymm (grounded.bound_diagonal (square.1.symm ▸ hi)) (noNegative.bound_nonneg i)

theorem bound_phase (noNegative : NoNegative (afterPhases d n)) {k i j : Nat} (hk : k < n)
    (hi : i < n) (hj : j < n) : bound (afterPhases d (k + 1)) i j =
      min (bound (afterPhases d k) i j)
        (bound (afterPhases d k) i k + bound (afterPhases d k) k j) := by
  have here := noNegative.of_tightens (afterPhases_tightens_of_le hk.le)
  have square_k := afterPhases_square square k
  rw [bound_afterPhases_succ square hk hi hj,
    rowAt_of_noNegative (afterPhases_grounded square grounded k) here (square_k.1.symm ▸ hk)]

/-- After the phase of a node, bounds compose through it and through every earlier one. -/
theorem triangle_afterPhases (noNegative : NoNegative (afterPhases d n)) {k : Nat} (hk : k ≤ n)
    {m : Nat} (hm : m < k) (hi : i < n) (hj : j < n) :
    bound (afterPhases d k) i j ≤ bound (afterPhases d k) i m + bound (afterPhases d k) m j := by
  induction k generalizing m i j with
  | zero => exact absurd hm (Nat.not_lt_zero m)
  | succ k ih =>
    have hkn : k < n := hk
    have hmn : m < n := Nat.lt_of_lt_of_le hm hk
    have here := noNegative.of_tightens (afterPhases_tightens_of_le hkn.le)
    have zero := diagonal_of_noNegative (afterPhases_square square k)
      (afterPhases_grounded square grounded k) here hkn
    have phase {a b : Nat} (ha : a < n) (hb : b < n) := bound_phase square grounded noNegative hkn ha hb
    rw [phase hi hj, phase hi hmn, phase hmn hj]
    rcases Nat.lt_succ_iff_lt_or_eq.mp hm with earlier | rfl
    · have compose {a b : Nat} (ha : a < n) (hb : b < n) := ih hkn.le earlier ha hb
      generalize afterPhases d k = f at compose zero ⊢
      -- which of the two ways each side of the sum takes
      rcases min_choice (bound f i m) (bound f i k + bound f k m) with first | first <;>
        rcases min_choice (bound f m j) (bound f m k + bound f k j) with second | second <;>
        rw [first, second]
      · exact (min_le_left _ _).trans (compose hi hj)
      · rw [← add_assoc]
        exact (min_le_right _ _).trans (add_le_add_left (compose hi hkn) _)
      · rw [add_assoc]
        exact (min_le_right _ _).trans (add_le_add_right (compose hkn hj) _)
      · have around : 0 ≤ bound f k m + bound f m k := zero ▸ compose hkn hkn
        calc min (bound f i j) (bound f i k + bound f k j)
            ≤ bound f i k + bound f k j := min_le_right _ _
          _ = bound f i k + (0 + bound f k j) := by rw [zero_add]
          _ ≤ bound f i k + (bound f k m + bound f m k + bound f k j) :=
              add_le_add_right (add_le_add_left around _) _
          _ = bound f i k + bound f k m + (bound f m k + bound f k j) := by
              rw [add_assoc, add_assoc]
    · rw [zero, add_zero, min_self, zero_add, min_self]
      exact min_le_right _ _

theorem close_closed (noNegative : NoNegative (close (· + ·) d)) : Closed n (close (· + ·) d) := by
  rw [close_eq_afterPhases, square.1] at noNegative ⊢
  exact ⟨afterPhases_square square n,
    fun i hi => diagonal_of_noNegative (afterPhases_square square n)
      (afterPhases_grounded square grounded n) noNegative hi,
    fun i hi m hm j hj => triangle_afterPhases square grounded noNegative le_rfl hm hi hj⟩

end Triangle

/-! ### Assignments that attain a bound -/

/-- Distances to `a`, cut off at a distance to the ground that is at least `far`. -/
def distanceTo (e : Table) (a : Nat) (far : ℤ) (x : Nat) : WithTop ℤ :=
  min (bound e x a) (far + bound e x 0)

theorem distanceTo_le (closed : Closed n e) {a : Nat} (ha : a < n) (far : ℤ)
    (hi : i < n) (hj : j < n) : distanceTo e a far i ≤ bound e i j + distanceTo e a far j := by
  have toA := closed.triangle i hi j hj a ha
  have toGround := closed.triangle i hi j hj 0 (Nat.zero_lt_of_lt hi)
  rw [distanceTo, distanceTo, ← min_add_add_left]
  refine min_le_min toA ?_
  rw [add_left_comm]
  exact add_le_add_right toGround _

/-- In a closed table every difference up to a bound is attained. -/
theorem exists_sat_of_le_bound (closed : Closed n e) (grounded : Grounded e) {a b : Nat}
    (ha : a < n) (hb : b < n) {t : ℤ} (le : t ≤ bound e b a) :
    ∃ val, Sat val e ∧ t ≤ val a - val b := by
  have finite (far : ℤ) {x : Nat} (hx : x < n) :
      ∃ v : ℤ, distanceTo e a far x = v := by
    obtain ⟨w, _, some⟩ := (grounded x (closed.square.1.symm ▸ hx)).2
    refine WithTop.ne_top_iff_exists.mp (ne_top_of_le_ne_top ?_ (min_le_right _ _)) |>.imp
      fun v same => same.symm
    rw [bound_of_get some, ← WithTop.coe_add]
    exact WithTop.coe_ne_top
  obtain ⟨w, _, ground⟩ := (grounded b (closed.square.1.symm ▸ hb)).2
  let val (x : Nat) : ℤ := -(distanceTo e a (t - w) x).untopD 0
  have val_of {x : Nat} {v : ℤ} (same : distanceTo e a (t - w) x = v) : val x = -v := by
    simp only [val, same, WithTop.untopD_coe]
  refine ⟨val, ?_, ?_⟩
  · intro i j v some
    obtain ⟨hi, hj⟩ := lt_of_get closed.square some
    obtain ⟨p, atI⟩ := finite (t - w) hi
    obtain ⟨q, atJ⟩ := finite (t - w) hj
    have step := distanceTo_le closed ha (t - w) hi hj
    rw [atI, atJ, bound_of_get some, ← WithTop.coe_add] at step
    have step := WithTop.coe_le_coe.mp step
    rw [val_of atI, val_of atJ]
    omega
  · obtain ⟨p, atA⟩ := finite (t - w) ha
    obtain ⟨q, atB⟩ := finite (t - w) hb
    have least : (p : WithTop ℤ) ≤ 0 := by
      rw [← atA, ← closed.diagonal a ha]
      exact min_le_left _ _
    have most : (t : WithTop ℤ) ≤ q := by
      rw [← atB]
      refine le_min le ?_
      rw [bound_of_get ground, ← WithTop.coe_add]
      exact WithTop.coe_le_coe.mpr (by omega)
    have least := WithTop.coe_le_coe.mp least
    have most := WithTop.coe_le_coe.mp most
    rw [val_of atA, val_of atB]
    omega

end NpaCore.DifferenceBounds
