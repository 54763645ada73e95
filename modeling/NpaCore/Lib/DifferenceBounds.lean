import Mathlib.Data.List.Basic
import Mathlib.Tactic.Linarith

/-!
# Difference bounds

A table of difference bounds over nodes `0, 1, …`: an entry `w` at `(i, j)`
states that the value of node `j` is at most the value of node `i` plus `w`, and
an absent entry states nothing. Edges are added one by one, and the table is
then closed under composition of bounds by the three nested loops of
Floyd and Warshall, run in place. Bounds are added by a given `add`, which may be
an addition of machine integers that wraps.

## Main results

`close_sat`: closing keeps every assignment that satisfies the table, when `add`
is exact on sums of the size a satisfiable table can form.
`close_tightens`: closing only lowers bounds, so no added edge is forgotten.
-/

namespace NpaCore.DifferenceBounds

abbrev Table := List (List (Option Int))

def get (d : Table) (i j : Nat) : Option Int :=
  ((d[i]?).bind fun row => row[j]?).join

def set (d : Table) (i j : Nat) (w : Int) : Table :=
  d.modify i fun row => row.set j (some w)

/-- Record an edge unless the table already has one that is at least as tight. -/
def addEdge (d : Table) (source target : Nat) (weight : Int) : Table :=
  match get d source target with
  | none => set d source target weight
  | some old => if weight < old then set d source target weight else d

section Close

variable (add : Int → Int → Int)

/-- The loop over `j`: the bound `ik` from `i` to `k` was read before the loop and
    is not read again, while the row of `k` is read as the loop leaves it. -/
def relaxRow (d : Table) (k i : Nat) (ik : Int) (targets : List Nat) : Table :=
  targets.foldl (fun d j =>
    match get d k j with
    | none => d
    | some kj => addEdge d i j (add ik kj)) d

/-- The loop over `i` for one intermediate node `k`. -/
def relaxVia (d : Table) (k : Nat) (nodes sources : List Nat) : Table :=
  sources.foldl (fun d i =>
    match get d i k with
    | none => d
    | some ik => relaxRow add d k i ik nodes) d

/-- The loop over the intermediate nodes. -/
def relaxAll (d : Table) (nodes vias : List Nat) : Table :=
  vias.foldl (fun d k => relaxVia add d k nodes nodes) d

def close (d : Table) : Table :=
  relaxAll add d (List.range d.length) (List.range d.length)

end Close

def hasNegativeDiagonal (d : Table) : Bool :=
  (List.range d.length).any fun i =>
    match get d i i with
    | none => false
    | some bound => bound < 0

/-! ### Reading a written table -/

variable {d : Table} {w : Int}

theorem get_set_ne {i j a b : Nat} (h : ¬(a = i ∧ b = j)) :
    get (set d i j w) a b = get d a b := by
  simp only [get, set, List.getElem?_modify]
  by_cases hi : i = a
  · subst hi
    have hj : ¬j = b := fun e => h ⟨rfl, e.symm⟩
    cases d[i]? with
    | none => rfl
    | some row => simp [List.getElem?_set_ne hj]
  · simp only [if_neg hi]
    cases d[a]? <;> rfl

variable {i j : Nat}

/-- Writing an entry either stores the value there or leaves the table as it was. -/
theorem get_set_self {w v : Int} (h : get (set d i j w) i j = some v) : v = w := by
  simp only [get, set, List.getElem?_modify] at h
  cases hr : d[i]? with
  | none => simp [hr] at h
  | some row =>
    by_cases hj : j < row.length
    · have e : some w = some v := by simpa [hr, hj] using h
      exact (Option.some.inj e).symm
    · simp [hr, Nat.le_of_not_lt hj] at h

theorem get_set_of_some {w old : Int} (h : get d i j = some old) :
    get (set d i j w) i j = some w := by
  simp only [get, set, List.getElem?_modify] at h ⊢
  cases hr : d[i]? with
  | none => simp [hr] at h
  | some row =>
    by_cases hj : j < row.length
    · simp [hj]
    · simp [hr, Nat.le_of_not_lt hj] at h

@[simp] theorem length_set (d : Table) (i j : Nat) (w : Int) : (set d i j w).length = d.length := by
  simp [set]

@[simp] theorem length_addEdge (d : Table) (i j : Nat) (w : Int) :
    (addEdge d i j w).length = d.length := by
  unfold addEdge
  split
  · simp
  · split <;> simp

/-! ### Satisfaction -/

/-- The assignment `val` satisfies every bound of the table. -/
def Sat (val : Nat → Int) (d : Table) : Prop :=
  ∀ i j w, get d i j = some w → val j ≤ val i + w

variable {val : Nat → Int}

theorem set_sat (h : Sat val d) (edge : val j ≤ val i + w) : Sat val (set d i j w) := by
  intro a b v hv
  by_cases hab : a = i ∧ b = j
  · obtain ⟨rfl, rfl⟩ := hab
    rw [get_set_self hv]
    exact edge
  · rw [get_set_ne hab] at hv
    exact h a b v hv

theorem addEdge_sat (h : Sat val d) (edge : val j ≤ val i + w) : Sat val (addEdge d i j w) := by
  unfold addEdge
  split
  · exact set_sat h edge
  · split
    · exact set_sat h edge
    · exact h

/-! ### Tightening -/

/-- Every bound of `d` is kept by `e`, possibly lowered. -/
def Tightens (d e : Table) : Prop :=
  ∀ i j w, get d i j = some w → ∃ v, get e i j = some v ∧ v ≤ w

theorem Tightens.refl (d : Table) : Tightens d d :=
  fun _ _ w h => ⟨w, h, Int.le_refl w⟩

theorem Tightens.trans {d e f : Table} (hde : Tightens d e) (hef : Tightens e f) :
    Tightens d f := by
  intro i j w h
  obtain ⟨v, hv, hvw⟩ := hde i j w h
  obtain ⟨u, hu, huv⟩ := hef i j v hv
  exact ⟨u, hu, Int.le_trans huv hvw⟩

theorem addEdge_tightens (d : Table) (i j : Nat) (w : Int) : Tightens d (addEdge d i j w) := by
  intro a b v hv
  by_cases hab : a = i ∧ b = j
  · obtain ⟨rfl, rfl⟩ := hab
    simp only [addEdge, hv]
    split
    · exact ⟨w, get_set_of_some hv, by omega⟩
    · exact ⟨v, hv, Int.le_refl v⟩
  · unfold addEdge
    refine ⟨v, ?_, Int.le_refl v⟩
    split
    · rw [get_set_ne hab, hv]
    · split
      · rw [get_set_ne hab, hv]
      · exact hv

/-- The fold of tightening steps tightens. -/
theorem foldl_tightens {α : Type} (step : Table → α → Table)
    (hstep : ∀ d a, Tightens d (step d a)) (items : List α) (d : Table) :
    Tightens d (items.foldl step d) := by
  induction items generalizing d with
  | nil => exact .refl d
  | cons a rest ih => exact (hstep d a).trans (ih (step d a))

theorem relaxRow_tightens (add : Int → Int → Int) (d : Table) (k i : Nat) (ik : Int)
    (targets : List Nat) : Tightens d (relaxRow add d k i ik targets) := by
  apply foldl_tightens
  intro d j
  split
  · exact .refl d
  · exact addEdge_tightens d i j _

theorem relaxVia_tightens (add : Int → Int → Int) (d : Table) (k : Nat)
    (nodes sources : List Nat) : Tightens d (relaxVia add d k nodes sources) := by
  apply foldl_tightens
  intro d i
  split
  · exact .refl d
  · exact relaxRow_tightens add d k i _ nodes

theorem close_tightens (add : Int → Int → Int) (d : Table) : Tightens d (close add d) := by
  apply foldl_tightens
  intro d k
  exact relaxVia_tightens add d k _ _

/-! ### Entries of a table of a given size -/

/-- The table is square of side `n`: every entry inside can be written. -/
def Square (n : Nat) (d : Table) : Prop :=
  d.length = n ∧ ∀ row ∈ d, row.length = n

theorem set_square {n : Nat} (h : Square n d) (i j : Nat) (w : Int) :
    Square n (set d i j w) := by
  refine ⟨by simpa using h.1, ?_⟩
  intro row hrow
  obtain ⟨m, hm⟩ := List.getElem?_of_mem hrow
  simp only [set, List.getElem?_modify] at hm
  cases hr : d[m]? with
  | none => simp [hr] at hm
  | some old =>
    have len := h.2 old (List.mem_of_getElem? hr)
    by_cases hi : i = m
    · have e : old.set j (some w) = row := by simpa [hr, hi] using hm
      rw [← e, List.length_set, len]
    · have e : old = row := by simpa [hr, hi] using hm
      rw [← e, len]

theorem addEdge_square {n : Nat} (h : Square n d) (i j : Nat) (w : Int) :
    Square n (addEdge d i j w) := by
  unfold addEdge
  split
  · exact set_square h i j w
  · split
    · exact set_square h i j w
    · exact h

/-- Inside a square table an added edge bounds its entry. -/
theorem get_addEdge_self {n : Nat} (h : Square n d) (hi : i < n)
    (hj : j < n) (w : Int) : ∃ v, get (addEdge d i j w) i j = some v ∧ v ≤ w := by
  cases hd : get d i j with
  | some old =>
    simp only [addEdge, hd]
    split
    · exact ⟨w, get_set_of_some hd, Int.le_refl w⟩
    · exact ⟨old, hd, by omega⟩
  | none =>
    simp only [addEdge, hd]
    have hrow : i < d.length := by rw [h.1]; exact hi
    have hlen : d[i].length = n := h.2 d[i] (List.getElem_mem hrow)
    refine ⟨w, ?_, Int.le_refl w⟩
    simp [get, set, hrow, hlen, hj]

/-! ### Closing a satisfiable table -/

/-- Every bound is at most `limit` in absolute value. -/
def Within (limit : Int) (d : Table) : Prop :=
  ∀ i j w, get d i j = some w → -limit ≤ w ∧ w ≤ limit

theorem set_within {limit : Int} (h : Within limit d)
    (lower : -limit ≤ w) (upper : w ≤ limit) : Within limit (set d i j w) := by
  intro a b v hv
  by_cases hab : a = i ∧ b = j
  · obtain ⟨rfl, rfl⟩ := hab
    rw [get_set_self hv]
    exact ⟨lower, upper⟩
  · rw [get_set_ne hab] at hv
    exact h a b v hv

theorem addEdge_within {limit : Int} (h : Within limit d)
    (lower : -limit ≤ w) (upper : w ≤ limit) : Within limit (addEdge d i j w) := by
  unfold addEdge
  split
  · exact set_within h lower upper
  · split
    · exact set_within h lower upper
    · exact h

theorem get_addEdge_ne {i j a b : Nat} (h : ¬(a = i ∧ b = j)) :
    get (addEdge d i j w) a b = get d a b := by
  unfold addEdge
  split
  · exact get_set_ne h
  · split
    · exact get_set_ne h
    · rfl

theorem addEdge_of_le {w old : Int} (h : get d i j = some old)
    (hle : old ≤ w) : addEdge d i j w = d := by
  simp only [addEdge, h]
  rw [if_neg (by omega)]

/-- What holds inside the loops for the node `k`, started at `d`: the row and the column
    of `k` stay as they were, and every bound is a consequence within the limit. -/
structure Relaxing (val : Nat → Int) (limit : Int) (k : Nat) (d e : Table) : Prop where
  sat : Sat val e
  within : Within limit e
  row : ∀ j, get e k j = get d k j
  column : ∀ i, get e i k = get d i k

/-- The sums the loops for `k` form are within the limit, and `add` is exact on them. -/
def SumsWithin (add : Int → Int → Int) (limit : Int) (k : Nat) (d : Table) : Prop :=
  ∀ i j ik kj, get d i k = some ik → get d k j = some kj →
    add ik kj = ik + kj ∧ -limit ≤ ik + kj ∧ ik + kj ≤ limit

section Phase

variable {add : Int → Int → Int} {val : Nat → Int} {limit : Int} {k : Nat} {d : Table}

theorem addEdge_relaxing (sums : SumsWithin add limit k d) (diagonal : get d k k = some 0)
    {e : Table} (h : Relaxing val limit k d e) {ik kj : Int}
    (hik : get d i k = some ik) (hkj : get d k j = some kj) :
    Relaxing val limit k d (addEdge e i j (add ik kj)) := by
  obtain ⟨exact, lower, upper⟩ := sums i j ik kj hik hkj
  rw [exact]
  by_cases hi : i = k
  · -- the row of `k` is relaxed through a zero bound
    subst hi
    have zero : ik = 0 := Option.some.inj (hik.symm.trans diagonal)
    rw [addEdge_of_le ((h.row j).trans hkj) (by omega)]
    exact h
  by_cases hj : j = k
  · subst hj
    have zero : kj = 0 := Option.some.inj (hkj.symm.trans diagonal)
    rw [addEdge_of_le ((h.column i).trans hik) (by omega)]
    exact h
  have first := h.sat i k ik ((h.column i).trans hik)
  have second := h.sat k j kj ((h.row j).trans hkj)
  refine ⟨addEdge_sat h.sat (by omega), addEdge_within h.within lower upper, ?_, ?_⟩
  · intro b
    rw [get_addEdge_ne (fun e => hi e.1.symm), h.row b]
  · intro a
    rw [get_addEdge_ne (fun e => hj e.2.symm), h.column a]

theorem relaxRow_relaxing (sums : SumsWithin add limit k d) (diagonal : get d k k = some 0)
    {i : Nat} {ik : Int} (hik : get d i k = some ik) (targets : List Nat) {e : Table}
    (h : Relaxing val limit k d e) :
    Relaxing val limit k d (relaxRow add e k i ik targets) := by
  induction targets generalizing e with
  | nil => exact h
  | cons j rest ih =>
    simp only [relaxRow, List.foldl_cons]
    apply ih
    rw [h.row j]
    cases hkj : get d k j with
    | none => exact h
    | some kj => exact addEdge_relaxing sums diagonal h hik hkj

theorem relaxVia_relaxing (sums : SumsWithin add limit k d) (diagonal : get d k k = some 0)
    (nodes sources : List Nat) {e : Table} (h : Relaxing val limit k d e) :
    Relaxing val limit k d (relaxVia add e k nodes sources) := by
  induction sources generalizing e with
  | nil => exact h
  | cons i rest ih =>
    simp only [relaxVia, List.foldl_cons]
    apply ih
    rw [h.column i]
    cases hik : get d i k with
    | none => exact h
    | some ik => exact relaxRow_relaxing sums diagonal hik nodes h

end Phase

/-- A satisfiable table whose node `i` bounds itself by at most zero has zero there. -/
theorem diagonal_zero {d e : Table} (hsat : Sat val e) (ht : Tightens d e)
    {i : Nat} (h : get d i i = some w) (hw : w ≤ 0) : get e i i = some 0 := by
  obtain ⟨v, hv, hvw⟩ := ht i i w h
  have lower := hsat i i v hv
  have zero : v = 0 := by omega
  rw [hv, zero]

/-- Each further node at most doubles the bounds, as long as sums within `most` are exact. -/
theorem relaxAll_sat {add : Int → Int → Int} {most : Int}
    (exact : ∀ a b, -most ≤ a + b → a + b ≤ most → add a b = a + b)
    (nodes vias : List Nat) (diagonal : ∀ k ∈ vias, ∃ w ≤ 0, get d k k = some w)
    {limit : Int} (hsat : Sat val d) (hwithin : Within limit d)
    (fits : limit * 2 ^ vias.length ≤ most) : Sat val (relaxAll add d nodes vias) := by
  induction vias generalizing d limit with
  | nil => exact hsat
  | cons k rest ih =>
    simp only [relaxAll, List.foldl_cons]
    obtain ⟨w, hw, hkk⟩ := diagonal k (by simp)
    have zero := diagonal_zero hsat (.refl d) hkk hw
    have nonneg : 0 ≤ limit := (hwithin k k 0 zero).2
    have grow : (1 : Int) ≤ 2 ^ rest.length := one_le_pow₀ (by decide)
    have doubled : (2 * limit) * 2 ^ rest.length ≤ most := by
      rw [List.length_cons, Int.pow_succ] at fits
      linarith
    have small : 2 * limit ≤ most := by nlinarith
    have sums : SumsWithin add (2 * limit) k d := by
      intro i j ik kj hik hkj
      have first := hwithin i k ik hik
      have second := hwithin k j kj hkj
      exact ⟨exact ik kj (by omega) (by omega), by omega, by omega⟩
    have wider : Within (2 * limit) d := by
      intro i j v hv
      have bound := hwithin i j v hv
      omega
    have phase := relaxVia_relaxing sums zero nodes nodes
      (⟨hsat, wider, fun _ => rfl, fun _ => rfl⟩ : Relaxing val (2 * limit) k d d)
    refine ih ?_ phase.sat phase.within doubled
    intro m hm
    obtain ⟨v, hv, hmm⟩ := diagonal m (List.mem_cons_of_mem _ hm)
    obtain ⟨u, hu, huv⟩ := relaxVia_tightens add d k nodes nodes m m v hmm
    exact ⟨u, Int.le_trans huv hv, hu⟩

/-- Every node bounds itself and node `0` by at most zero, as in a table over values that
    are not negative and relative to a node of value zero. -/
def Grounded (d : Table) : Prop :=
  ∀ i < d.length, (∃ w ≤ 0, get d i i = some w) ∧ (∃ w ≤ 0, get d i 0 = some w)

theorem lt_length_of_get (h : get d i j = some w) :
    i < d.length := by
  by_contra hi
  simp [get, Nat.le_of_not_lt hi] at h

theorem close_sat {add : Int → Int → Int} {most limit : Int}
    (exact : ∀ a b, -most ≤ a + b → a + b ≤ most → add a b = a + b)
    (nonneg : ∀ i, 0 ≤ val i) (ground : val 0 = 0) (hd : Grounded d) (hsat : Sat val d)
    (hwithin : Within limit d) (fits : limit * 2 ^ (d.length - 1) ≤ most) :
    Sat val (close add d) := by
  simp only [close]
  rcases hlen : d.length with _ | n
  · exact hsat
  rw [hlen, Nat.add_sub_cancel] at fits
  obtain ⟨⟨w, hw, h00⟩, _⟩ := hd 0 (by omega)
  have zero := diagonal_zero hsat (.refl d) h00 hw
  have limitNonneg : 0 ≤ limit := (hwithin 0 0 0 zero).2
  have grow : (1 : Int) ≤ 2 ^ n := one_le_pow₀ (by decide)
  -- through node `0` bounds do not grow: bounds to it are at most zero, and bounds from
  -- it are not negative
  have sums : SumsWithin add limit 0 d := by
    intro i j ik kj hik hkj
    have toZero : ik ≤ 0 := by
      obtain ⟨v, hv, hi0⟩ := (hd i (lt_length_of_get hik)).2
      rw [hik] at hi0
      rwa [Option.some.inj hi0]
    have fromZero : 0 ≤ kj := by
      have edge := hsat 0 j kj hkj
      have value := nonneg j
      omega
    have first := hwithin i 0 ik hik
    have second := hwithin 0 j kj hkj
    have small : limit ≤ most := by nlinarith
    exact ⟨exact ik kj (by omega) (by omega), by omega, by omega⟩
  have phase := relaxVia_relaxing sums zero (List.range (n + 1)) (List.range (n + 1))
    (⟨hsat, hwithin, fun _ => rfl, fun _ => rfl⟩ : Relaxing val limit 0 d d)
  rw [List.range_succ_eq_map]
  simp only [relaxAll, List.foldl_cons]
  rw [← List.range_succ_eq_map]
  refine relaxAll_sat exact _ _ ?_ phase.sat phase.within (by simpa using fits)
  intro k hk
  obtain ⟨m, hm, rfl⟩ := List.mem_map.mp hk
  obtain ⟨⟨v, hv, hkk⟩, _⟩ := hd (m + 1) (by have := List.mem_range.mp hm; omega)
  obtain ⟨u, hu, huv⟩ := relaxVia_tightens add d 0 _ _ (m + 1) (m + 1) v hkk
  exact ⟨u, Int.le_trans huv hv, hu⟩

theorem Grounded.mono {d e : Table} (h : Grounded d) (ht : Tightens d e)
    (hlen : e.length = d.length) : Grounded e := by
  intro i hi
  rw [hlen] at hi
  obtain ⟨⟨w, hw, hii⟩, ⟨v, hv, hi0⟩⟩ := h i hi
  obtain ⟨w', hii', hw'⟩ := ht i i w hii
  obtain ⟨v', hi0', hv'⟩ := ht i 0 v hi0
  exact ⟨⟨w', by omega, hii'⟩, ⟨v', by omega, hi0'⟩⟩

end NpaCore.DifferenceBounds
