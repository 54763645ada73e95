import NpaCore.Lib.ClosedBounds

/-!
# Nested walks

A phase runs in place, so a source after its node `k` meets a row of `k` that has already been
passed through `k` itself. Where the diagonal has a negative bound the phases therefore do not
compute shortest ways, but the least weights of nested walks, which take `k` once or twice
between pieces that avoid it and every later node. The weight of a nested walk can triple with
each node, and the sums of the loops with it.

## Main results

`bound_le_of_nestedWalk`, `nestedWalk_of_bound`: an entry is the least weight of a nested walk.
`closeSums_ge_iff`: the sums of the loops stay above a limit exactly when the nested walks do.
`closeSums_le`: above, the sums only double with each node.
-/

namespace NpaCore.DifferenceBounds

/-- Walks through the edges of the table whose inner nodes are before `k`, with their weights. -/
inductive NestedWalk (d : Table) : Nat → Nat → Nat → ℤ → Prop
  | edge {i j : Nat} {w : ℤ} (entry : get d i j = some w) : NestedWalk d 0 i j w
  | skip {k i j : Nat} {w : ℤ} (walk : NestedWalk d k i j w) : NestedWalk d (k + 1) i j w
  | through {k i j : Nat} {a b : ℤ} (into : NestedWalk d k i k a) (out : NestedWalk d k k j b) :
      NestedWalk d (k + 1) i j (a + b)
  | around {k i j : Nat} {a b c : ℤ} (after : k < i) (into : NestedWalk d k i k a)
      (loop : NestedWalk d k k k c) (out : NestedWalk d k k j b) :
      NestedWalk d (k + 1) i j (a + (c + b))

variable {n : Nat} {d : Table} {k i j : Nat}

theorem NestedWalk.inside (square : Square n d) {w : ℤ} (walk : NestedWalk d k i j w) :
    i < n ∧ j < n := by
  induction walk with
  | edge entry => exact lt_of_get square entry
  | skip _ ih => exact ih
  | through _ _ into out => exact ⟨into.1, out.2⟩
  | around _ _ _ _ into _ out => exact ⟨into.1, out.2⟩

theorem NestedWalk.mono {k m i j : Nat} {w : ℤ} (walk : NestedWalk d k i j w) (le : k ≤ m) :
    NestedWalk d m i j w := by
  induction m, le using Nat.le_induction with
  | base => exact walk
  | succ m _ ih => exact ih.skip

/-- Each node at most triples the weights. -/
theorem NestedWalk.weight_ge {limit : ℤ} (nonneg : 0 ≤ limit) (hwithin : Within limit d)
    {w : ℤ} (walk : NestedWalk d k i j w) : -(limit * 3 ^ k) ≤ w := by
  have positive (k : Nat) : 0 ≤ limit * 3 ^ k := mul_nonneg nonneg (pow_nonneg (by decide) k)
  have triple (k : Nat) : limit * 3 ^ (k + 1) = 3 * (limit * 3 ^ k) := by
    rw [pow_succ, ← mul_assoc, mul_comm _ 3]
  induction walk with
  | edge entry =>
    rw [pow_zero, mul_one]
    exact (hwithin _ _ _ entry).1
  | @skip k _ _ _ _ ih =>
    have := positive k
    rw [triple]
    omega
  | @through k _ _ _ _ _ _ into out =>
    have := positive k
    rw [triple]
    omega
  | @around k _ _ _ _ _ _ _ _ _ into loop out =>
    rw [triple]
    omega

/-! ### Entries and sums as walks -/

theorem rowAt_le (k i j : Nat) : rowAt d k i j ≤ bound d k j := by
  unfold rowAt
  split
  next => exact le_rfl
  next => exact min_le_left _ _

/-- The parts of a sum of the phase of `k`. -/
theorem sum_parts {s : ℤ} (sum : (s : WithTop ℤ) = bound d i k + rowAt d k i j) :
    (∃ a b : ℤ, bound d i k = a ∧ bound d k j = b ∧ s = a + b) ∨
      k < i ∧ ∃ a c b : ℤ, bound d i k = a ∧ bound d k k = c ∧ bound d k j = b ∧
        s = a + (c + b) := by
  obtain ⟨a, r, into, row, rfl⟩ := WithTop.add_eq_coe.mp sum.symm
  unfold rowAt at row
  split at row
  next => exact .inl ⟨a, r, into.symm, row.symm, rfl⟩
  next after =>
    rcases min_choice (bound d k j) (bound d k k + bound d k j) with direct | twice
    · rw [direct] at row
      exact .inl ⟨a, r, into.symm, row.symm, rfl⟩
    · rw [twice] at row
      obtain ⟨c, b, loop, out, rfl⟩ := WithTop.add_eq_coe.mp row.symm
      exact .inr ⟨Nat.lt_of_not_le after, a, c, b, into.symm, loop.symm, out.symm, rfl⟩

section Walks

variable (square : Square n d)
include square

theorem bound_le_of_nestedWalk {w : ℤ} (walk : NestedWalk d k i j w) (hk : k ≤ n) :
    bound (afterPhases d k) i j ≤ w := by
  induction walk with
  | edge entry => exact (bound_of_get entry).le
  | @skip k i j w walk ih =>
    obtain ⟨hi, hj⟩ := walk.inside square
    rw [bound_afterPhases_succ square hk hi hj]
    exact (min_le_left _ _).trans (ih (Nat.le_of_succ_le hk))
  | @through k i j a b into out ihInto ihOut =>
    have earlier := Nat.le_of_succ_le hk
    rw [bound_afterPhases_succ square hk (into.inside square).1 (out.inside square).2]
    refine (min_le_right _ _).trans ?_
    rw [WithTop.coe_add]
    exact add_le_add (ihInto earlier) ((rowAt_le k i j).trans (ihOut earlier))
  | @around k i j a b c after into loop out ihInto ihLoop ihOut =>
    have earlier := Nat.le_of_succ_le hk
    rw [bound_afterPhases_succ square hk (into.inside square).1 (out.inside square).2]
    refine (min_le_right _ _).trans ?_
    rw [WithTop.coe_add, WithTop.coe_add, rowAt, if_neg (Nat.not_le_of_lt after)]
    exact add_le_add (ihInto earlier)
      ((min_le_right _ _).trans (add_le_add (ihLoop earlier) (ihOut earlier)))

theorem nestedWalk_of_bound (hk : k ≤ n) (hi : i < n) (hj : j < n) {w : ℤ}
    (entry : bound (afterPhases d k) i j = w) : NestedWalk d k i j w := by
  induction k generalizing i j w with
  | zero => exact .edge (bound_eq_coe.mp entry)
  | succ k ih =>
    have earlier := Nat.le_of_succ_le hk
    rw [bound_afterPhases_succ square hk hi hj] at entry
    rcases min_choice (bound (afterPhases d k) i j)
      (bound (afterPhases d k) i k + rowAt (afterPhases d k) k i j) with old | new
    · exact (ih earlier hi hj (old.symm.trans entry)).skip
    · rcases sum_parts (entry.symm.trans new) with ⟨a, b, into, out, rfl⟩ |
        ⟨after, a, c, b, into, loop, out, rfl⟩
      · exact .through (ih earlier hi hk into) (ih earlier hk hj out)
      · exact .around after (ih earlier hi hk into) (ih earlier hk hk loop) (ih earlier hk hj out)

theorem nestedWalk_of_sum (hk : k < n) (hi : i < n) (hj : j < n) {s : ℤ}
    (sum : (s : WithTop ℤ) = bound (afterPhases d k) i k + rowAt (afterPhases d k) k i j) :
    NestedWalk d (k + 1) i j s := by
  have walk {a b : Nat} (ha : a < n) (hb : b < n) {w : ℤ} (entry : bound (afterPhases d k) a b = w) :=
    nestedWalk_of_bound square hk.le ha hb entry
  rcases sum_parts sum with ⟨a, b, into, out, rfl⟩ | ⟨after, a, c, b, into, loop, out, rfl⟩
  · exact .through (walk hi hk into) (walk hk hj out)
  · exact .around after (walk hi hk into) (walk hk hk loop) (walk hk hj out)

/-- An entry is one of the given ones or a sum of the loops. -/
theorem entry_or_sum (hk : k ≤ n) (hi : i < n) (hj : j < n) {w : ℤ}
    (entry : bound (afterPhases d k) i j = w) :
    get d i j = some w ∨ w ∈ closeSums (· + ·) d := by
  induction k generalizing w with
  | zero => exact .inl (bound_eq_coe.mp entry)
  | succ k ih =>
    rw [bound_afterPhases_succ square hk hi hj] at entry
    rcases min_choice (bound (afterPhases d k) i j)
      (bound (afterPhases d k) i k + rowAt (afterPhases d k) k i j) with old | new
    · exact ih (Nat.le_of_succ_le hk) (old.symm.trans entry)
    · exact .inr ((mem_closeSums square).mpr ⟨k, hk, i, hi, j, hj, entry.symm.trans new⟩)

/-- The sums stay above a limit exactly when the nested walks do. -/
theorem closeSums_ge_iff {low : ℤ} (entries : ∀ i j w, get d i j = some w → low ≤ w) :
    (∀ s ∈ closeSums (· + ·) d, low ≤ s) ↔ ∀ i j w, NestedWalk d n i j w → low ≤ w := by
  constructor
  · intro above i j w walk
    obtain ⟨hi, hj⟩ := walk.inside square
    have least := bound_le_of_nestedWalk square walk le_rfl
    obtain ⟨v, entry⟩ := WithTop.ne_top_iff_exists.mp (ne_top_of_le_ne_top WithTop.coe_ne_top least)
    rw [← entry] at least
    have least := WithTop.coe_le_coe.mp least
    rcases entry_or_sum square le_rfl hi hj entry.symm with given | formed
    · exact (entries i j v given).trans least
    · exact (above v formed).trans least
  · intro above s mem
    obtain ⟨k, hk, i, hi, j, hj, sum⟩ := (mem_closeSums square).mp mem
    exact above i j s ((nestedWalk_of_sum square hk hi hj sum).mono hk)

end Walks

/-! ### Above -/

section Above

variable {limit : ℤ} (start : Start n limit d)
include start

/-- The first bound of a sum is to its node, and the second one from it is not raised. -/
theorem sum_le (hk : k < n) {s : ℤ} (sum : (s : WithTop ℤ) =
    bound (afterPhases d k) i k + rowAt (afterPhases d k) k i j) :
    ∃ a b : ℤ, bound (afterPhases d k) i k = a ∧ bound (afterPhases d k) k j = b ∧ s ≤ a + b := by
  have grounded := afterPhases_grounded start.square start.grounded k
  have diagonal := grounded.bound_diagonal ((afterPhases_square start.square k).1.symm ▸ hk)
  rcases sum_parts sum with ⟨a, b, into, out, rfl⟩ | ⟨_, a, c, b, into, loop, out, rfl⟩
  · exact ⟨a, b, into, out, le_rfl⟩
  · rw [loop] at diagonal
    have low : c ≤ 0 := WithTop.coe_le_coe.mp diagonal
    exact ⟨a, b, into, out, by omega⟩

theorem sum_ground_le {i j : Nat} (hi : i < n) (pos : 0 < n) {s : ℤ} (sum : (s : WithTop ℤ) =
    bound (afterPhases d 0) i 0 + rowAt (afterPhases d 0) 0 i j) : s ≤ limit := by
  obtain ⟨a, b, into, out, le⟩ := sum_le start pos sum
  have ground := start.grounded.bound_ground (start.square.1.symm ▸ hi)
  rw [afterPhases_zero] at into out
  rw [into] at ground
  have low : a ≤ 0 := WithTop.coe_le_coe.mp ground
  have high := (within_bound start.within out).2
  omega

theorem entry_le (hk : k < n) (hi : i < n) (hj : j < n) {w : ℤ}
    (entry : bound (afterPhases d (k + 1)) i j = w) : w ≤ limit * 2 ^ k := by
  induction k generalizing i j w with
  | zero =>
    rw [bound_afterPhases_succ start.square hk hi hj] at entry
    rw [pow_zero, mul_one]
    rcases min_choice (bound (afterPhases d 0) i j)
      (bound (afterPhases d 0) i 0 + rowAt (afterPhases d 0) 0 i j) with old | new
    · exact (within_bound start.within (old.symm.trans entry)).2
    · exact sum_ground_le start hi hk (entry.symm.trans new)
  | succ k ih =>
    have earlier := Nat.lt_of_succ_lt hk
    have positive : 0 ≤ limit * 2 ^ k := mul_nonneg start.limit_nonneg (pow_nonneg (by decide) k)
    rw [pow_succ, ← mul_assoc]
    rw [bound_afterPhases_succ start.square hk hi hj] at entry
    rcases min_choice (bound (afterPhases d (k + 1)) i j)
      (bound (afterPhases d (k + 1)) i (k + 1) + rowAt (afterPhases d (k + 1)) (k + 1) i j) with
      old | new
    · have small := ih earlier hi hj (old.symm.trans entry)
      omega
    · obtain ⟨a, b, into, out, le⟩ := sum_le start hk (entry.symm.trans new)
      have first := ih earlier hi hk into
      have second := ih earlier hk hj out
      omega

/-- Above, the sums double with each node after the first. -/
theorem closeSums_le : ∀ s ∈ closeSums (· + ·) d, s ≤ limit * 2 ^ (n - 1) := by
  intro s mem
  obtain ⟨k, hk, i, hi, j, hj, sum⟩ := (mem_closeSums start.square).mp mem
  have grows {a : Nat} (le : a ≤ n - 1) : limit * 2 ^ a ≤ limit * 2 ^ (n - 1) :=
    mul_le_mul_of_nonneg_left (pow_le_pow_right₀ (by decide) le) start.limit_nonneg
  cases k with
  | zero =>
    have most := grows (Nat.zero_le (n - 1))
    rw [pow_zero, mul_one] at most
    exact (sum_ground_le start hi hk sum).trans most
  | succ k =>
    obtain ⟨a, b, into, out, le⟩ := sum_le start hk sum
    have earlier := Nat.lt_of_succ_lt hk
    have first := entry_le start earlier hi hk into
    have second := entry_le start earlier hk hj out
    have most := grows (Nat.le_sub_one_of_lt hk)
    rw [pow_succ, ← mul_assoc] at most
    omega

end Above

end NpaCore.DifferenceBounds
