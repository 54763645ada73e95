import Mathlib.Data.List.Chain
import Mathlib.Data.List.Sort

/-!
# Sorted lists

Lists sorted by a three-way comparison. A list is the result of sorting it exactly when its
neighbours are in order, and for this the comparison need not be transitive. A list without
repetitions is determined by its members.
-/

namespace NpaCore.Sorted

variable {α : Type} {cmp : α → α → Ordering}

/-- Lists with the same members in the same numbers are sorted alike. -/
theorem insertionSort_eq_of_perm {r : α → α → Prop} [DecidableRel r] [Std.Total r] [IsTrans α r]
    {l l' : List α} (perm : l.Perm l')
    (antisymm : ∀ a ∈ l, ∀ b ∈ l, r a b → r b a → a = b) :
    l.insertionSort r = l'.insertionSort r := by
  have sorted := (List.perm_insertionSort r l).trans (perm.trans (List.perm_insertionSort r l').symm)
  refine List.Perm.eq_of_pairwise ?_ (List.pairwise_insertionSort r l)
    (List.pairwise_insertionSort r l') sorted
  intro a b left right first second
  have inLeft := (List.mem_insertionSort r).mp left
  have inRight := perm.mem_iff.mpr ((List.mem_insertionSort r).mp right)
  exact antisymm a inLeft b inRight first second

section Oriented

variable [Std.OrientedCmp cmp]

theorem isLE_of_not_isLE {a b : α} (h : ¬(cmp a b).isLE = true) : (cmp b a).isLE = true := by
  have swap : cmp b a = (cmp a b).swap := Std.OrientedCmp.eq_swap
  rw [swap]
  cases same : cmp a b <;> simp_all

theorem orderedInsert_isChain (a : α) {l : List α} (chain : l.IsChain fun a b => (cmp a b).isLE) :
    (l.orderedInsert (fun a b => (cmp a b).isLE = true) a).IsChain fun a b => (cmp a b).isLE := by
  induction l with
  | nil => exact .singleton a
  | cons b l ih =>
    rw [List.orderedInsert]
    split
    next le => exact .cons_cons le chain
    next notLe =>
      have rest := ih chain.tail
      cases l with
      | nil => exact .cons_cons (isLE_of_not_isLE notLe) (.singleton a)
      | cons c l =>
        rw [List.orderedInsert] at rest ⊢
        split
        next le =>
          rw [if_pos le] at rest
          exact .cons_cons (isLE_of_not_isLE notLe) rest
        next notLe' =>
          rw [if_neg notLe'] at rest
          exact .cons_cons (List.isChain_cons_cons.mp chain).1 rest

theorem insertionSort_isChain (l : List α) :
    (l.insertionSort fun a b => (cmp a b).isLE = true).IsChain fun a b => (cmp a b).isLE := by
  induction l with
  | nil => exact .nil
  | cons a l ih => exact orderedInsert_isChain a ih

/-- Sorting leaves a list as it is when its neighbours are in order. -/
theorem insertionSort_eq_self_iff {l : List α} :
    l.insertionSort (fun a b => (cmp a b).isLE = true) = l ↔ l.IsChain fun a b => (cmp a b).isLE := by
  constructor
  · intro same
    rw [← same]
    exact insertionSort_isChain l
  · intro chain
    induction l with
    | nil => rfl
    | cons a l ih =>
      rw [List.insertionSort_cons, ih chain.tail]
      cases l with
      | nil => rfl
      | cons b l => exact List.orderedInsert_cons_of_le _ l (List.isChain_cons_cons.mp chain).1

end Oriented

section Transitive

variable [Std.TransCmp cmp]

theorem insertionSort_pairwise (l : List α) :
    (l.insertionSort fun a b => (cmp a b).isLE = true).Pairwise fun a b => (cmp a b).isLE := by
  have total : Std.Total fun a b : α => (cmp a b).isLE = true :=
    ⟨fun a b => by
      by_cases le : (cmp a b).isLE = true
      · exact .inl le
      · exact .inr (isLE_of_not_isLE le)⟩
  have trans : IsTrans α fun a b => (cmp a b).isLE = true :=
    ⟨fun _ _ _ first second => Std.TransCmp.isLE_trans first second⟩
  exact List.pairwise_insertionSort _ l

/-- A list in strict order is determined by its members. -/
theorem eq_of_mem_iff {l r : List α} (left : l.Pairwise fun a b => cmp a b = .lt)
    (right : r.Pairwise fun a b => cmp a b = .lt) (same : ∀ a, a ∈ l ↔ a ∈ r) : l = r := by
  have swapped : ∀ {a b : α}, cmp a b = .lt → cmp b a ≠ .lt := by
    intro a b less more
    have swap : cmp b a = (cmp a b).swap := Std.OrientedCmp.eq_swap
    rw [swap, less] at more
    cases more
  have irrefl : Std.Irrefl fun a b : α => cmp a b = .lt := ⟨fun _ less => swapped less less⟩
  have antisymm : Std.Antisymm fun a b : α => cmp a b = .lt :=
    ⟨fun _ _ less more => absurd more (swapped less)⟩
  exact left.eq_of_mem_iff right same

end Transitive

end NpaCore.Sorted
