import Mathlib.Algebra.Order.Monoid.WithTop
import Mathlib.Algebra.Order.Ring.Int
import NpaCore.Lib.DifferenceBounds

/-!
# The phases of the closure

One phase of the three nested loops passes all bounds through one node `k`. In exact
arithmetic its result is given entry by entry: a source up to `k` meets the row of `k` as it
was, a source after `k` meets it as the phase has left it. `closeSums` lists the sums that the
loops form on the way, for arithmetics that are exact on some sums only.

## Main results

`bound_relaxVia`: the entries after a phase.
`mem_viaSums`: the sums that a phase forms.
`close_congr`: an addition that is exact on the sums of the loops gives the exact closure.
`bound_afterPhases_succ`, `mem_closeSums`: the same for the loops as a whole.
-/

namespace NpaCore.DifferenceBounds

/-- An entry as a bound: `⊤` when it is absent. -/
def bound (d : Table) (i j : Nat) : WithTop ℤ :=
  match get d i j with
  | none => ⊤
  | some w => w

theorem bound_eq_coe {d : Table} {i j : Nat} {w : ℤ} : bound d i j = w ↔ get d i j = some w := by
  unfold bound
  split
  next none => simp [none]
  next v some => simp [some, WithTop.coe_inj]

theorem bound_of_get {d : Table} {i j : Nat} {w : ℤ} (h : get d i j = some w) : bound d i j = w :=
  bound_eq_coe.mpr h

theorem bound_of_none {d : Table} {i j : Nat} (h : get d i j = none) : bound d i j = ⊤ := by
  rw [bound, h]

theorem bound_addEdge {n : Nat} {d : Table} (square : Square n d) {i j : Nat} (hi : i < n)
    (hj : j < n) (w : ℤ) (a b : Nat) :
    bound (addEdge d i j w) a b = if a = i ∧ b = j then min (bound d i j) w else bound d a b := by
  split
  next same =>
    obtain ⟨rfl, rfl⟩ := same
    cases old : get d a b with
    | none =>
      obtain ⟨v, written, least⟩ := get_addEdge_self square hi hj w
      simp only [addEdge, old] at written
      rw [bound_of_none old, top_inf_eq, bound_eq_coe, addEdge, old]
      obtain rfl := get_set_self written
      exact written
    | some v =>
      rw [bound_of_get old]
      by_cases less : w < v
      · have smaller : ((v : WithTop ℤ) ⊓ w) = w := inf_eq_right.mpr (WithTop.coe_le_coe.mpr less.le)
        rw [smaller, bound_eq_coe, addEdge, old]
        simp only [if_pos less]
        exact get_set_of_some old
      · have smaller : ((v : WithTop ℤ) ⊓ w) = v :=
          inf_eq_left.mpr (WithTop.coe_le_coe.mpr (not_lt.mp less))
        rw [smaller, bound_eq_coe, addEdge_of_le old (not_lt.mp less), old]
  next other => rw [bound, bound, get_addEdge_ne other]

/-! ### One row -/

variable {add : Int → Int → Int}

section Row

variable {n : Nat} {d : Table} {k i : Nat}

theorem relaxRow_square (square : Square n d) (ik : ℤ)
    (targets : List Nat) : Square n (relaxRow add d k i ik targets) := by
  induction targets generalizing d with
  | nil => exact square
  | cons j rest ih =>
    rw [relaxRow, List.foldl_cons, ← relaxRow]
    split
    next => exact ih square
    next => exact ih (addEdge_square square _ _ _)

/-- Each target is met once, so the loop reads the row of `k` as it was, even when it is the
    row that it writes. -/
theorem bound_relaxRow (square : Square n d) (hi : i < n) (ik : ℤ) {targets : List Nat}
    (inside : ∀ j ∈ targets, j < n) (once : targets.Nodup) (a b : Nat) :
    bound (relaxRow (· + ·) d k i ik targets) a b =
      if a = i ∧ b ∈ targets then min (bound d i b) (ik + bound d k b) else bound d a b := by
  induction targets generalizing d with
  | nil => simp [relaxRow]
  | cons j rest ih =>
    obtain ⟨fresh, once⟩ := List.nodup_cons.mp once
    obtain ⟨hj, inside⟩ := List.forall_mem_cons.mp inside
    have step : ∃ e, relaxRow (· + ·) d k i ik (j :: rest) = relaxRow (· + ·) e k i ik rest ∧
        Square n e ∧ ∀ a b, bound e a b =
          if a = i ∧ b = j then min (bound d i j) (ik + bound d k j) else bound d a b := by
      rw [relaxRow, List.foldl_cons]
      cases kj : get d k j with
      | none =>
        refine ⟨d, rfl, square, fun a b => ?_⟩
        rw [bound_of_none kj, add_top, inf_top_eq]
        split
        next same => rw [same.1, same.2]
        next => rfl
      | some kj' =>
        refine ⟨_, rfl, addEdge_square square i j _, fun a b => ?_⟩
        rw [bound_addEdge square hi hj, bound_of_get kj]
        rfl
    obtain ⟨e, rest_eq, square', entries⟩ := step
    rw [rest_eq, ih square' inside once]
    -- an entry of the rest is not the one just written
    by_cases row : a = i
    · subst row
      by_cases later : b ∈ rest
      · have other : b ≠ j := fun same => fresh (same ▸ later)
        simp [later, other, entries]
      · by_cases written : b = j
        · subst written
          simp [later, entries]
        · simp [later, written, entries]
    · simp [row, entries]

/-- The step of a phase for one source. -/
def relaxSource (add : Int → Int → Int) (d : Table) (k : Nat) (nodes : List Nat) (i : Nat) : Table :=
  match get d i k with
  | none => d
  | some ik => relaxRow add d k i ik nodes

theorem relaxVia_cons {nodes rest : List Nat} :
    relaxVia add d k nodes (i :: rest) = relaxVia add (relaxSource add d k nodes i) k nodes rest := rfl

theorem relaxSource_square (square : Square n d) (nodes : List Nat) :
    Square n (relaxSource add d k nodes i) := by
  unfold relaxSource
  split
  next => exact square
  next => exact relaxRow_square square _ _

theorem bound_relaxSource (square : Square n d) (hi : i < n) (a : Nat) {b : Nat} (hb : b < n) :
    bound (relaxSource (· + ·) d k (List.range n) i) a b =
      if a = i then min (bound d i b) (bound d i k + bound d k b) else bound d a b := by
  cases ik : get d i k with
  | none =>
    simp only [relaxSource, ik, bound_of_none ik, top_add, inf_top_eq]
    split
    next same => rw [same]
    next => rfl
  | some ik' =>
    simp only [relaxSource, ik]
    rw [bound_of_get ik, bound_relaxRow square hi _ (fun j hj => List.mem_range.mp hj)
      List.nodup_range]
    simp [hb]

end Row

/-! ### One phase -/

section Phase

variable {n : Nat} {d : Table} {k : Nat}

theorem relaxVia_square (square : Square n d) (nodes sources : List Nat) :
    Square n (relaxVia add d k nodes sources) := by
  induction sources generalizing d with
  | nil => exact square
  | cons i rest ih => exact ih (relaxSource_square square nodes)

/-- While the sources are not `k`, the row of `k` stays. -/
theorem bound_relaxVia_others (square : Square n d) (hk : k < n) {sources : List Nat}
    (inside : ∀ i ∈ sources, i < n) (once : sources.Nodup) (others : k ∉ sources) (a : Nat) {b : Nat}
    (hb : b < n) :
    bound (relaxVia (· + ·) d k (List.range n) sources) a b =
      if a ∈ sources then min (bound d a b) (bound d a k + bound d k b) else bound d a b := by
  induction sources generalizing d with
  | nil => simp [relaxVia]
  | cons i rest ih =>
    obtain ⟨fresh, once⟩ := List.nodup_cons.mp once
    obtain ⟨hi, inside⟩ := List.forall_mem_cons.mp inside
    have other : k ≠ i := fun same => others (same ▸ List.mem_cons_self)
    have others : k ∉ rest := fun mem => others (List.mem_cons_of_mem i mem)
    rw [relaxVia_cons, ih (relaxSource_square square _) inside once others]
    simp only [bound_relaxSource square hi _ hb, bound_relaxSource square hi _ hk, if_neg other,
      List.mem_cons]
    by_cases row : a = i
    · subst row
      simp [fresh]
    · simp [row]

/-- The row of `k` as a source meets it: as it was up to `k`, and passed through `k` itself
    after that. -/
def rowAt (d : Table) (k i j : Nat) : WithTop ℤ :=
  if i ≤ k then bound d k j else min (bound d k j) (bound d k k + bound d k j)

theorem range_split (hk : k < n) :
    List.range n = List.range k ++ k :: List.range' (k + 1) (n - k - 1) := by
  have parts : n = k + (n - k - 1 + 1) := by omega
  conv_lhs => rw [parts]
  rw [List.range_eq_range', List.range_eq_range', ← List.range'_append_1, Nat.zero_add,
    List.range'_succ]

theorem relaxVia_append {nodes first rest : List Nat} :
    relaxVia add d k nodes (first ++ rest) =
      relaxVia add (relaxVia add d k nodes first) k nodes rest :=
  List.foldl_append

/-- The entries after the phase of `k`. -/
theorem bound_relaxVia (square : Square n d) (hk : k < n) {i j : Nat} (hi : i < n) (hj : j < n) :
    bound (relaxVia (· + ·) d k (List.range n) (List.range n)) i j =
      min (bound d i j) (bound d i k + rowAt d k i j) := by
  -- the sources before `k`, then `k`, then those after it
  have before (a b : Nat) (hb : b < n) := bound_relaxVia_others square hk
    (fun i hi => Nat.lt_trans (List.mem_range.mp hi) hk) List.nodup_range
    (fun mem => Nat.lt_irrefl k (List.mem_range.mp mem)) a hb
  have squareBefore : Square n (relaxVia (· + ·) d k (List.range n) (List.range k)) :=
    relaxVia_square square _ _
  have at_k (a b : Nat) (hb : b < n) := bound_relaxSource (k := k) squareBefore hk a hb
  have squareAt : Square n (relaxSource (· + ·)
      (relaxVia (· + ·) d k (List.range n) (List.range k)) k (List.range n) k) :=
    relaxSource_square squareBefore _
  have rest : ∀ a ∈ List.range' (k + 1) (n - k - 1), a < n := by
    intro a mem
    have := List.mem_range'_1.mp mem
    omega
  have after (a b : Nat) (hb : b < n) := bound_relaxVia_others squareAt hk rest List.nodup_range'
    (by simp) a hb
  conv_lhs => rw [show relaxVia (· + ·) d k (List.range n) (List.range n) =
    relaxVia (· + ·) (relaxSource (· + ·) (relaxVia (· + ·) d k (List.range n) (List.range k)) k
      (List.range n) k) k (List.range n) (List.range' (k + 1) (n - k - 1)) by
        rw [← relaxVia_cons, ← relaxVia_append, ← range_split hk]]
  rw [after i j hj]
  simp only [at_k _ _ hj, at_k _ _ hk, before _ _ hj, before _ _ hk, List.mem_range,
    List.mem_range'_1]
  rcases Nat.lt_trichotomy i k with less | rfl | more
  · have outside : ¬k + 1 ≤ i := by omega
    simp [rowAt, less, less.le, Nat.ne_of_lt less, outside]
  · simp [rowAt]
  · have inside : k + 1 ≤ i ∧ i < k + 1 + (n - k - 1) := by omega
    simp [rowAt, inside, Nat.not_le.mpr more, Nat.ne_of_gt more, Nat.lt_asymm more]

end Phase

/-! ### The sums of the loops -/

section Formed

variable (add : Int → Int → Int)

/-- The sums that the loop over the targets forms, with the table as `add` leaves it. -/
def rowSums (d : Table) (k i : Nat) (ik : ℤ) : List Nat → List ℤ
  | [] => []
  | j :: rest =>
    match get d k j with
    | none => rowSums d k i ik rest
    | some kj => (ik + kj) :: rowSums (addEdge d i j (add ik kj)) k i ik rest

/-- The sums of one source. -/
def sourceSums (d : Table) (k : Nat) (nodes : List Nat) (i : Nat) : List ℤ :=
  match get d i k with
  | none => []
  | some ik => rowSums add d k i ik nodes

/-- The sums of one phase. -/
def viaSums (d : Table) (k : Nat) (nodes : List Nat) : List Nat → List ℤ
  | [] => []
  | i :: rest => sourceSums add d k nodes i ++ viaSums (relaxSource add d k nodes i) k nodes rest

/-- The sums of all phases. -/
def allSums (d : Table) (nodes : List Nat) : List Nat → List ℤ
  | [] => []
  | k :: rest => viaSums add d k nodes nodes ++ allSums (relaxVia add d k nodes nodes) nodes rest

/-- Every sum of two bounds that closing the table forms. -/
def closeSums (d : Table) : List ℤ := allSums add d (List.range d.length) (List.range d.length)

end Formed

variable {nodes : List Nat}

section Sums

variable {n : Nat} {d : Table} {k : Nat}

theorem mem_rowSums (square : Square n d) {i : Nat} (hi : i < n) (ik : ℤ) {targets : List Nat}
    (inside : ∀ j ∈ targets, j < n) (once : targets.Nodup) {s : ℤ} :
    s ∈ rowSums (· + ·) d k i ik targets ↔ ∃ j ∈ targets, (s : WithTop ℤ) = ik + bound d k j := by
  induction targets generalizing d with
  | nil => simp [rowSums]
  | cons j rest ih =>
    obtain ⟨fresh, once⟩ := List.nodup_cons.mp once
    obtain ⟨hj, inside⟩ := List.forall_mem_cons.mp inside
    rw [List.exists_mem_cons_iff]
    cases kj : get d k j with
    | none =>
      rw [bound_of_none kj, add_top]
      simp only [rowSums, kj, ih square inside once, WithTop.coe_ne_top, false_or]
    | some kj' =>
      simp only [rowSums, kj, List.mem_cons, ih (addEdge_square square _ _ _) inside once]
      rw [bound_of_get kj, ← WithTop.coe_add, WithTop.coe_inj]
      -- the rest does not read what has just been written
      refine or_congr_right (exists_congr fun b => and_congr_right fun later => ?_)
      have other : ¬(k = i ∧ b = j) := fun same => fresh (same.2 ▸ later)
      rw [bound_addEdge square hi hj, if_neg other]

theorem mem_sourceSums (square : Square n d) {i : Nat} (hi : i < n) {s : ℤ} :
    s ∈ sourceSums (· + ·) d k (List.range n) i ↔
      ∃ j < n, (s : WithTop ℤ) = bound d i k + bound d k j := by
  cases ik : get d i k with
  | none => simp [sourceSums, ik, bound_of_none ik]
  | some ik' =>
    simp only [sourceSums, ik, bound_of_get ik,
      mem_rowSums square hi ik' (fun j hj => List.mem_range.mp hj) List.nodup_range, List.mem_range]

theorem mem_viaSums_others (square : Square n d) (hk : k < n) {sources : List Nat}
    (inside : ∀ i ∈ sources, i < n) (once : sources.Nodup) (others : k ∉ sources) {s : ℤ} :
    s ∈ viaSums (· + ·) d k (List.range n) sources ↔
      ∃ i ∈ sources, ∃ j < n, (s : WithTop ℤ) = bound d i k + bound d k j := by
  induction sources generalizing d with
  | nil => simp [viaSums]
  | cons i rest ih =>
    obtain ⟨fresh, once⟩ := List.nodup_cons.mp once
    obtain ⟨hi, inside⟩ := List.forall_mem_cons.mp inside
    have other : k ≠ i := fun same => others (same ▸ List.mem_cons_self)
    have others : k ∉ rest := fun mem => others (List.mem_cons_of_mem i mem)
    rw [viaSums, List.mem_append, mem_sourceSums square hi,
      ih (relaxSource_square square _) inside once others, List.exists_mem_cons_iff]
    refine or_congr_right (exists_congr fun a => and_congr_right fun later => ?_)
    have row : a ≠ i := fun same => fresh (same ▸ later)
    refine exists_congr fun b => and_congr_right fun hb => ?_
    rw [bound_relaxSource square hi a hk, bound_relaxSource square hi k hb, if_neg row, if_neg other]

theorem viaSums_append {nodes first rest : List Nat} :
    viaSums (· + ·) d k nodes (first ++ rest) =
      viaSums (· + ·) d k nodes first ++
        viaSums (· + ·) (relaxVia (· + ·) d k nodes first) k nodes rest := by
  induction first generalizing d with
  | nil => rfl
  | cons i first ih => rw [List.cons_append, viaSums, ih, viaSums, List.append_assoc, relaxVia_cons]

/-- The sums of a phase: a bound to `k`, and the row of `k` as the source meets it. -/
theorem mem_viaSums (square : Square n d) (hk : k < n) {s : ℤ} :
    s ∈ viaSums (· + ·) d k (List.range n) (List.range n) ↔
      ∃ i < n, ∃ j < n, (s : WithTop ℤ) = bound d i k + rowAt d k i j := by
  have before (a b : Nat) (hb : b < n) := bound_relaxVia_others square hk
    (fun i hi => Nat.lt_trans (List.mem_range.mp hi) hk) List.nodup_range
    (fun mem => Nat.lt_irrefl k (List.mem_range.mp mem)) a hb
  have squareBefore : Square n (relaxVia (· + ·) d k (List.range n) (List.range k)) :=
    relaxVia_square square _ _
  have at_k (a b : Nat) (hb : b < n) := bound_relaxSource (k := k) squareBefore hk a hb
  have squareAt : Square n (relaxSource (· + ·)
      (relaxVia (· + ·) d k (List.range n) (List.range k)) k (List.range n) k) :=
    relaxSource_square squareBefore _
  have firstSums : s ∈ viaSums (· + ·) d k (List.range n) (List.range k) ↔
      ∃ i < k, ∃ j < n, (s : WithTop ℤ) = bound d i k + bound d k j := by
    simpa using mem_viaSums_others (s := s) square hk
      (fun i hi => Nat.lt_trans (List.mem_range.mp hi) hk) List.nodup_range (by simp)
  have rest : ∀ a ∈ List.range' (k + 1) (n - k - 1), a < n := by
    intro a mem
    have := List.mem_range'_1.mp mem
    omega
  have lastSums := mem_viaSums_others (s := s) squareAt hk rest List.nodup_range' (by simp)
  conv_lhs => rw [show viaSums (· + ·) d k (List.range n) (List.range n) =
    viaSums (· + ·) d k (List.range n) (List.range k ++ k :: List.range' (k + 1) (n - k - 1)) by
      rw [← range_split hk]]
  rw [viaSums_append, viaSums, List.mem_append, List.mem_append, firstSums,
    mem_sourceSums squareBefore hk, lastSums]
  constructor
  · rintro (⟨i, less, j, hj, sum⟩ | ⟨j, hj, sum⟩ | ⟨i, mem, j, hj, sum⟩)
    · refine ⟨i, Nat.lt_trans less hk, j, hj, ?_⟩
      rw [rowAt, if_pos less.le, sum]
    · refine ⟨k, hk, j, hj, ?_⟩
      rw [rowAt, if_pos le_rfl, sum, before k k hk, before k j hj]
      simp
    · obtain ⟨low, high⟩ := List.mem_range'_1.mp mem
      refine ⟨i, by omega, j, hj, ?_⟩
      rw [sum, at_k i k hk, at_k k j hj, before i k hk, before k k hk, before k j hj]
      simp [rowAt, show i ≠ k by omega, show ¬i < k by omega, show ¬i ≤ k by omega]
  · rintro ⟨i, hi, j, hj, sum⟩
    rcases Nat.lt_trichotomy i k with less | rfl | more
    · refine .inl ⟨i, less, j, hj, ?_⟩
      rw [sum, rowAt, if_pos less.le]
    · refine .inr (.inl ⟨j, hj, ?_⟩)
      rw [sum, rowAt, if_pos le_rfl, before i i hk, before i j hj]
      simp
    · refine .inr (.inr ⟨i, List.mem_range'_1.mpr (by omega), j, hj, ?_⟩)
      rw [sum, at_k i k hk, at_k k j hj, before i k hk, before k k hk, before k j hj]
      simp [rowAt, show i ≠ k by omega, show ¬i < k by omega, show ¬i ≤ k by omega]

/-! ### Addition that is exact on the sums -/

theorem relaxRow_congr {i : Nat} {ik : ℤ} {targets : List Nat}
    (exact : ∀ a b, a + b ∈ rowSums (· + ·) d k i ik targets → add a b = a + b) :
    relaxRow add d k i ik targets = relaxRow (· + ·) d k i ik targets := by
  induction targets generalizing d with
  | nil => rfl
  | cons j rest ih =>
    simp only [relaxRow, List.foldl_cons]
    cases kj : get d k j with
    | none =>
      refine ih fun a b mem => exact a b ?_
      simpa only [rowSums, kj] using mem
    | some kj' =>
      simp only [rowSums, kj, List.mem_cons] at exact
      dsimp only
      rw [exact ik kj' (.inl rfl)]
      exact ih fun a b mem => exact a b (.inr mem)

theorem relaxSource_congr {i : Nat}
    (exact : ∀ a b, a + b ∈ sourceSums (· + ·) d k nodes i → add a b = a + b) :
    relaxSource add d k nodes i = relaxSource (· + ·) d k nodes i := by
  cases ik : get d i k with
  | none => simp only [relaxSource, ik]
  | some ik' =>
    simp only [relaxSource, ik]
    simp only [sourceSums, ik] at exact
    exact relaxRow_congr exact

theorem relaxVia_congr {nodes sources : List Nat}
    (exact : ∀ a b, a + b ∈ viaSums (· + ·) d k nodes sources → add a b = a + b) :
    relaxVia add d k nodes sources = relaxVia (· + ·) d k nodes sources := by
  induction sources generalizing d with
  | nil => rfl
  | cons i rest ih =>
    simp only [viaSums, List.mem_append] at exact
    have source : relaxSource add d k nodes i = relaxSource (· + ·) d k nodes i :=
      relaxSource_congr fun a b mem => exact a b (.inl mem)
    rw [relaxVia_cons, relaxVia_cons, source]
    exact ih fun a b mem => exact a b (.inr mem)

theorem relaxAll_congr {nodes vias : List Nat}
    (exact : ∀ a b, a + b ∈ allSums (· + ·) d nodes vias → add a b = a + b) :
    relaxAll add d nodes vias = relaxAll (· + ·) d nodes vias := by
  induction vias generalizing d with
  | nil => rfl
  | cons k rest ih =>
    simp only [allSums, List.mem_append] at exact
    simp only [relaxAll, List.foldl_cons]
    rw [relaxVia_congr fun a b mem => exact a b (.inl mem)]
    exact ih fun a b mem => exact a b (.inr mem)

/-! ### Sums that an addition forms -/

section Formed

variable {add : Int → Int → Int} {Fits : ℤ → Prop} (exact : ∀ a b, Fits (a + b) → add a b = a + b)
include exact

theorem rowSums_fit {i : Nat} {ik : ℤ} (targets : List Nat) :
    (∀ s ∈ rowSums add d k i ik targets, Fits s) ↔
      ∀ s ∈ rowSums (· + ·) d k i ik targets, Fits s := by
  induction targets generalizing d with
  | nil => rfl
  | cons j rest ih =>
    cases kj : get d k j with
    | none =>
      simp only [rowSums, kj]
      exact ih
    | some kj' =>
      simp only [rowSums, kj, List.forall_mem_cons]
      -- the table is the same as long as the sum before it fits
      refine and_congr_right fun fits => ?_
      rw [exact ik kj' fits]
      exact ih

theorem sourceSums_fit {i : Nat} :
    (∀ s ∈ sourceSums add d k nodes i, Fits s) ↔
      ∀ s ∈ sourceSums (· + ·) d k nodes i, Fits s := by
  cases ik : get d i k with
  | none => simp only [sourceSums, ik]
  | some ik' =>
    simp only [sourceSums, ik]
    exact rowSums_fit exact nodes

theorem viaSums_fit (sources : List Nat) :
    (∀ s ∈ viaSums add d k nodes sources, Fits s) ↔
      ∀ s ∈ viaSums (· + ·) d k nodes sources, Fits s := by
  induction sources generalizing d with
  | nil => rfl
  | cons i rest ih =>
    simp only [viaSums, List.forall_mem_append, sourceSums_fit exact]
    refine and_congr_right fun fits => ?_
    have same : relaxSource add d k nodes i = relaxSource (· + ·) d k nodes i :=
      relaxSource_congr fun a b mem => exact a b (fits (a + b) mem)
    rw [same]
    exact ih

theorem allSums_fit (vias : List Nat) :
    (∀ s ∈ allSums add d nodes vias, Fits s) ↔ ∀ s ∈ allSums (· + ·) d nodes vias, Fits s := by
  induction vias generalizing d with
  | nil => rfl
  | cons k rest ih =>
    simp only [allSums, List.forall_mem_append, viaSums_fit exact]
    refine and_congr_right fun fits => ?_
    rw [relaxVia_congr fun a b mem => exact a b (fits (a + b) mem)]
    exact ih

/-- The sums formed with an addition that is exact on what fits all fit exactly when those of
    exact arithmetic do. -/
theorem closeSums_fit :
    (∀ s ∈ closeSums add d, Fits s) ↔ ∀ s ∈ closeSums (· + ·) d, Fits s :=
  allSums_fit exact _

end Formed

/-- An addition that is exact on the sums of the loops closes the table exactly. -/
theorem close_congr
    (exact : ∀ a b, a + b ∈ closeSums (· + ·) d → add a b = a + b) : close add d = close (· + ·) d :=
  relaxAll_congr exact

end Sums

/-! ### The table after some phases -/

/-- The table after the phases of the nodes before `k`, in exact arithmetic. -/
def afterPhases (d : Table) (k : Nat) : Table :=
  relaxAll (· + ·) d (List.range d.length) (List.range k)

section After

variable {n : Nat} {d : Table}

@[simp] theorem afterPhases_zero : afterPhases d 0 = d := rfl

theorem afterPhases_succ (k : Nat) : afterPhases d (k + 1) =
    relaxVia (· + ·) (afterPhases d k) k (List.range d.length) (List.range d.length) := by
  rw [afterPhases, List.range_succ, relaxAll, List.foldl_append]
  rfl

theorem relaxAll_square (square : Square n d) (nodes vias : List Nat) :
    Square n (relaxAll add d nodes vias) := by
  induction vias generalizing d with
  | nil => exact square
  | cons k rest ih => exact ih (relaxVia_square square nodes nodes)

theorem close_square (square : Square n d) : Square n (close add d) :=
  relaxAll_square square _ _

theorem close_eq_afterPhases : close (· + ·) d = afterPhases d d.length := rfl

theorem afterPhases_square (square : Square n d) (k : Nat) : Square n (afterPhases d k) :=
  relaxAll_square square _ _

/-- One phase more. -/
theorem bound_afterPhases_succ (square : Square n d) {k i j : Nat} (hk : k < n) (hi : i < n)
    (hj : j < n) : bound (afterPhases d (k + 1)) i j =
      min (bound (afterPhases d k) i j)
        (bound (afterPhases d k) i k + rowAt (afterPhases d k) k i j) := by
  rw [afterPhases_succ, square.1]
  exact bound_relaxVia (afterPhases_square square k) hk hi hj

theorem allSums_append {nodes first rest : List Nat} : allSums (· + ·) d nodes (first ++ rest) =
    allSums (· + ·) d nodes first ++ allSums (· + ·) (relaxAll (· + ·) d nodes first) nodes rest := by
  induction first generalizing d with
  | nil => rfl
  | cons k first ih =>
    rw [List.cons_append, allSums, ih, allSums, List.append_assoc]
    rfl

theorem mem_allSums (m : Nat) {s : ℤ} :
    s ∈ allSums (· + ·) d nodes (List.range m) ↔
      ∃ k < m, s ∈ viaSums (· + ·) (relaxAll (· + ·) d nodes (List.range k)) k nodes nodes := by
  induction m with
  | zero => simp [allSums]
  | succ m ih =>
    have last : allSums (· + ·) (relaxAll (· + ·) d nodes (List.range m)) nodes [m] =
        viaSums (· + ·) (relaxAll (· + ·) d nodes (List.range m)) m nodes nodes := List.append_nil _
    rw [List.range_succ, allSums_append, List.mem_append, last]
    constructor
    · rintro (mem | mem)
      · obtain ⟨k, hk, mem⟩ := ih.mp mem
        exact ⟨k, Nat.lt_succ_of_lt hk, mem⟩
      · exact ⟨m, Nat.lt_succ_self m, mem⟩
    · rintro ⟨k, hk, mem⟩
      rcases Nat.lt_succ_iff_lt_or_eq.mp hk with hk | rfl
      · exact .inl (ih.mpr ⟨k, hk, mem⟩)
      · exact .inr mem

/-- Each sum of the loops belongs to the phase of a node. -/
theorem mem_closeSums (square : Square n d) {s : ℤ} :
    s ∈ closeSums (· + ·) d ↔ ∃ k < n, ∃ i < n, ∃ j < n, (s : WithTop ℤ) =
      bound (afterPhases d k) i k + rowAt (afterPhases d k) k i j := by
  rw [closeSums, mem_allSums, square.1]
  refine exists_congr fun k => and_congr_right fun hk => ?_
  rw [← mem_viaSums (afterPhases_square square k) hk, afterPhases, square.1]

end After

end NpaCore.DifferenceBounds
