import Mathlib.Data.Fintype.Card
import Mathlib.Data.List.Sort
import Mathlib.Data.Set.Finite.Basic
import Mathlib.Logic.Relation
import Mathlib.Order.WellFounded
import Mathlib.Tactic.Set

/-!
# Ordering in layers

Items that need other items are emitted layer by layer: a layer holds the items whose needs
have been emitted, sorted by a key. When no item is ready, the first one that is left is
reported.

## Main results

`emit_ok_iff`: the emission succeeds exactly when no item needs itself through others.
`emit_perm`, `emit_settled`: what it returns is a permutation in which needs come first.
`emit_eq_of_perm`: with distinct keys it does not depend on the order of the items.
`emit_map`: the emission of numbered items is the emission of their numbers.
`emit_eq_of_reach`: needs of needs may be counted as needs.
-/

namespace NpaCore.Layers

variable {α κ : Type} [LinearOrder κ]

/-! ### Sorting by a key -/

def sortByKey (key : α → κ) (items : List α) : List α :=
  items.insertionSort fun a b => key a ≤ key b

variable {key : α → κ}

theorem sortByKey_perm (items : List α) : (sortByKey key items).Perm items :=
  List.perm_insertionSort _ items

theorem mem_sortByKey {items : List α} {item : α} : item ∈ sortByKey key items ↔ item ∈ items :=
  (sortByKey_perm items).mem_iff

/-- With distinct keys, sorting forgets the order. -/
theorem sortByKey_eq_of_perm {items items' : List α} (perm : items.Perm items')
    (distinct : ∀ a ∈ items, ∀ b ∈ items, key a = key b → a = b) :
    sortByKey key items = sortByKey key items' := by
  have sorted (items : List α) : (sortByKey key items).Pairwise fun a b => key a ≤ key b := by
    have total : Std.Total fun a b : α => key a ≤ key b := ⟨fun a b => le_total _ _⟩
    have trans : IsTrans α fun a b => key a ≤ key b := ⟨fun _ _ _ => le_trans⟩
    exact List.pairwise_insertionSort _ items
  refine List.Perm.eq_of_pairwise (fun a b ha hb le ge => ?_) (sorted items) (sorted items')
    (((sortByKey_perm items).trans perm).trans (sortByKey_perm items').symm)
  exact distinct a (mem_sortByKey.mp ha) b (perm.mem_iff.mpr (mem_sortByKey.mp hb))
    (le_antisymm le ge)

/-! ### Orders in which needs come first -/

section Order

variable {needs : α → List α}

/-- What an item of the order needs is before it. -/
def Settled (needs : α → List α) (order : List α) : Prop :=
  ∀ i (h : i < order.length), ∀ b ∈ needs order[i], b ∈ order.take i

theorem settled_nil : Settled needs [] := fun _ h => absurd h (Nat.not_lt_zero _)

theorem Settled.append {order layer : List α} (settled : Settled needs order)
    (met : ∀ item ∈ layer, ∀ b ∈ needs item, b ∈ order) : Settled needs (order ++ layer) := by
  intro i h b mem
  rw [List.take_append]
  by_cases earlier : i < order.length
  · rw [List.getElem_append_left earlier] at mem
    exact List.mem_append_left _ (settled i earlier b mem)
  · have later := Nat.le_of_not_lt earlier
    rw [List.getElem_append_right later] at mem
    rw [List.take_of_length_le later]
    exact List.mem_append_left _ (met _ (List.getElem_mem _) b mem)

/-- Needs of needs are before an item as well. -/
theorem Settled.reaches {order : List α} (settled : Settled needs order) {i : Nat}
    (h : i < order.length) {b : α} (reach : Relation.TransGen (fun a b => b ∈ needs a) order[i] b) :
    b ∈ order.take i := by
  induction reach with
  | single mem => exact settled i h _ mem
  | @tail c b _ mem before =>
    obtain ⟨j, hj, rfl⟩ := List.mem_take_iff_getElem.mp before
    have less : j < i := Nat.lt_of_lt_of_le hj (Nat.min_le_left _ _)
    have first := settled j (Nat.lt_trans less h) _ mem
    exact List.take_subset_take_left order less.le first

theorem mem_of_reach {emitted : List α} (closed : ∀ a ∈ emitted, ∀ b ∈ needs a, b ∈ emitted)
    {a b : α} (met : ∀ c ∈ needs a, c ∈ emitted)
    (reach : Relation.TransGen (fun a b => b ∈ needs a) a b) : b ∈ emitted := by
  induction reach with
  | single first => exact met _ first
  | tail _ last ih => exact closed _ ih _ last

/-- The item needs itself, through others or at once. -/
def Cyclic (needs : α → List α) (item : α) : Prop :=
  Relation.TransGen (fun a b => b ∈ needs a) item item

theorem Settled.acyclic {order : List α} (settled : Settled needs order) (nodup : order.Nodup)
    {item : α} (mem : item ∈ order) : ¬Cyclic needs item := by
  intro cycle
  obtain ⟨i, h, rfl⟩ := List.getElem_of_mem mem
  obtain ⟨j, hj, same⟩ := List.mem_take_iff_getElem.mp (settled.reaches h cycle)
  have less : j < i := Nat.lt_of_lt_of_le hj (Nat.min_le_left _ _)
  have equal := (nodup.getElem_inj_iff).mp same
  omega

/-- Among finitely many items that each need one of them, some item needs itself. -/
theorem exists_cyclic {items : List α} (nonempty : items ≠ [])
    (each : ∀ a ∈ items, ∃ b ∈ items, b ∈ needs a) : ∃ a ∈ items, Cyclic needs a := by
  by_contra acyclic
  let below (x y : {a // a ∈ items}) : Prop :=
    Relation.TransGen (fun a b => b ∈ needs a) y.1 x.1
  have finite : Finite {a // a ∈ items} := items.finite_toSet.to_subtype
  have trans : IsTrans _ below := ⟨fun _ _ _ first second => second.trans first⟩
  have irrefl : Std.Irrefl below := ⟨fun x cycle => acyclic ⟨x.1, x.2, cycle⟩⟩
  obtain ⟨first, mem⟩ := List.exists_mem_of_ne_nil items nonempty
  obtain ⟨least, _, minimal⟩ :=
    (Finite.wellFounded_of_trans_of_irrefl below).has_min Set.univ ⟨⟨first, mem⟩, trivial⟩
  obtain ⟨b, inside, need⟩ := each least.1 least.2
  exact minimal ⟨b, inside⟩ trivial (.single need)

end Order

/-! ### The loop -/

variable [DecidableEq α]

section Emit

variable (needs : α → List α) (key : α → κ)

/-- The items whose needs are all emitted, in the order of the list. -/
def ready (emitted remaining : List α) : List α :=
  remaining.filter fun item => (needs item).all (emitted.contains ·)

/-- The loop. `emitted` is in the order of emission. -/
def emit (remaining emitted : List α) : Except α (List α) :=
  match remaining with
  | [] => .ok emitted
  | first :: rest =>
    if ready needs emitted (first :: rest) = [] then .error first
    else
      emit ((first :: rest).filter fun item => !(ready needs emitted (first :: rest)).contains item)
        (emitted ++ sortByKey key (ready needs emitted (first :: rest)))
  termination_by remaining.length
  decreasing_by
    obtain ⟨item, mem⟩ := List.exists_mem_of_ne_nil _ ‹_›
    refine List.length_filter_lt_length_iff_exists.mpr ⟨item, List.mem_of_mem_filter mem, ?_⟩
    simpa using mem

end Emit

variable {needs : α → List α} {emitted remaining : List α}

theorem mem_ready {item : α} :
    item ∈ ready needs emitted remaining ↔ item ∈ remaining ∧ ∀ b ∈ needs item, b ∈ emitted := by
  simp [ready]

theorem emit_stuck {first : α} {rest emitted : List α}
    (empty : ready needs emitted (first :: rest) = []) :
    emit needs key (first :: rest) emitted = .error first := by
  rw [emit, if_pos empty]

theorem emit_round {first : α} {rest emitted : List α}
    (nonempty : ready needs emitted (first :: rest) ≠ []) :
    emit needs key (first :: rest) emitted =
      emit needs key ((first :: rest).filter fun item =>
          !(ready needs emitted (first :: rest)).contains item)
        (emitted ++ sortByKey key (ready needs emitted (first :: rest))) := by
  rw [emit, if_neg nonempty]

theorem filter_layer :
    (remaining.filter fun item => !(ready needs emitted remaining).contains item) =
      remaining.filter fun item => !(needs item).all (emitted.contains ·) := by
  refine List.filter_congr fun item mem => ?_
  congr 1
  rw [Bool.eq_iff_iff, List.contains_iff_mem, mem_ready]
  simp [mem]

theorem left_length_lt (nonempty : ready needs emitted remaining ≠ []) :
    (remaining.filter fun item => !(ready needs emitted remaining).contains item).length <
      remaining.length := by
  obtain ⟨item, mem⟩ := List.exists_mem_of_ne_nil _ nonempty
  apply List.length_filter_lt_length_iff_exists.mpr
  exact ⟨item, (mem_ready.mp mem).1, by simpa using mem⟩

/-- A layer and what is left of the list make up the list. -/
theorem layer_perm (emitted remaining : List α) :
    (sortByKey key (ready needs emitted remaining) ++
      remaining.filter fun item => !(ready needs emitted remaining).contains item).Perm
      remaining := by
  rw [filter_layer]
  exact ((sortByKey_perm _).append_right _).trans (List.filter_append_perm _ remaining)

theorem emit_perm {remaining emitted order : List α}
    (h : emit needs key remaining emitted = .ok order) : order.Perm (emitted ++ remaining) := by
  fun_induction emit needs key remaining emitted with
  | case1 emitted =>
    cases h
    rw [List.append_nil]
  | case2 => cases h
  | case3 emitted first rest nonempty ih =>
    refine (ih h).trans ?_
    rw [List.append_assoc]
    exact (layer_perm emitted (first :: rest)).append_left emitted

theorem emit_settled {remaining emitted order : List α} (start : Settled needs emitted)
    (h : emit needs key remaining emitted = .ok order) : Settled needs order := by
  fun_induction emit needs key remaining emitted with
  | case1 emitted =>
    cases h
    exact start
  | case2 => cases h
  | case3 emitted first rest nonempty ih =>
    refine ih (start.append fun item mem => ?_) h
    exact (mem_ready.mp (mem_sortByKey.mp mem)).2

/-- Where the loop gets stuck, every item that is left needs another one that is left. -/
theorem emit_error {remaining emitted : List α} {item : α}
    (closed : ∀ a ∈ remaining, ∀ b ∈ needs a, b ∈ emitted ∨ b ∈ remaining)
    (h : emit needs key remaining emitted = .error item) : ∃ a ∈ remaining, Cyclic needs a := by
  fun_induction emit needs key remaining emitted with
  | case1 => cases h
  | case2 emitted first rest empty =>
    refine exists_cyclic (List.cons_ne_nil _ _) fun a mem => ?_
    have waiting : a ∉ ready needs emitted (first :: rest) := by
      rw [show ready needs emitted (first :: rest) = [] from empty]
      exact List.not_mem_nil
    rw [mem_ready] at waiting
    push Not at waiting
    obtain ⟨b, need, missing⟩ := waiting mem
    exact ⟨b, (closed a mem b need).resolve_left missing, need⟩
  | case3 emitted first rest nonempty ih =>
    set layer := ready needs emitted (first :: rest) with layer_eq
    have still : ∀ a ∈ (first :: rest).filter fun item => !layer.contains item, ∀ b ∈ needs a,
        b ∈ emitted ++ sortByKey key layer ∨
          b ∈ (first :: rest).filter fun item => !layer.contains item := by
      intro a mem b need
      rcases closed a (List.mem_of_mem_filter mem) b need with done | left
      · exact .inl (List.mem_append_left _ done)
      · by_cases now : b ∈ layer
        · exact .inl (List.mem_append_right _ (mem_sortByKey.mpr now))
        · exact .inr (List.mem_filter.mpr ⟨left, by simpa using now⟩)
    obtain ⟨a, mem, cycle⟩ := ih still h
    exact ⟨a, List.mem_of_mem_filter mem, cycle⟩

/-- Without repeated items, and when everything needed is an item, the emission succeeds
    exactly when no item needs itself. -/
theorem emit_ok_iff {items : List α} (nodup : items.Nodup)
    (closed : ∀ a ∈ items, ∀ b ∈ needs a, b ∈ items) :
    (∃ order, emit needs key items [] = .ok order) ↔ ∀ a ∈ items, ¬Cyclic needs a := by
  constructor
  · rintro ⟨order, emitted⟩ a mem
    have perm : order.Perm items := emit_perm emitted
    have settled : Settled needs order := emit_settled settled_nil emitted
    exact settled.acyclic (perm.nodup_iff.mpr nodup) (perm.mem_iff.mpr mem)
  · intro acyclic
    cases result : emit needs key items [] with
    | ok order => exact ⟨order, rfl⟩
    | error item =>
      obtain ⟨a, mem, cycle⟩ := emit_error (fun a mem b need => .inr (closed a mem b need)) result
      exact absurd cycle (acyclic a mem)

/-! ### Independence of the order of the items -/

variable {needs' : α → List α}

theorem ready_perm {emitted remaining remaining' : List α}
    (perm : remaining.Perm remaining') (same : ∀ a ∈ remaining, ∀ b, b ∈ needs a ↔ b ∈ needs' a) :
    (ready needs emitted remaining).Perm (ready needs' emitted remaining') := by
  have pointwise : ready needs emitted remaining = ready needs' emitted remaining := by
    refine List.filter_congr fun item mem => ?_
    rw [Bool.eq_iff_iff]
    simp only [List.all_eq_true, List.contains_iff_mem, same item mem]
  rw [pointwise]
  exact perm.filter _

/-- What is emitted depends on the items and on what each needs, not on their order. -/
theorem emit_eq_of_perm {remaining emitted : List α} :
    ∀ {remaining' : List α}, remaining.Perm remaining' →
      (∀ a ∈ remaining, ∀ b, b ∈ needs a ↔ b ∈ needs' a) →
      (∀ a ∈ remaining, ∀ b ∈ remaining, key a = key b → a = b) →
      (emit needs key remaining emitted).toOption =
        (emit needs' key remaining' emitted).toOption := by
  fun_induction emit needs key remaining emitted with
  | case1 emitted =>
    intro remaining' perm _ _
    obtain rfl := perm.nil_eq
    rw [emit]
  | case2 emitted first rest empty =>
    intro remaining' perm same _
    have layers : (ready needs emitted (first :: rest)).Perm (ready needs' emitted remaining') :=
      ready_perm perm same
    rw [show ready needs emitted (first :: rest) = [] from empty] at layers
    cases remaining' with
    | nil => exact absurd perm.eq_nil (List.cons_ne_nil _ _)
    | cons first' rest' =>
      rw [emit_stuck layers.nil_eq.symm]
      rfl
  | case3 emitted first rest nonempty ih =>
    set layer := ready needs emitted (first :: rest) with layer_eq
    intro remaining' perm same distinct
    have layers : layer.Perm (ready needs' emitted remaining') := ready_perm perm same
    cases remaining' with
    | nil => exact absurd perm.eq_nil (List.cons_ne_nil _ _)
    | cons first' rest' =>
      have nonempty' : ready needs' emitted (first' :: rest') ≠ [] :=
        fun empty => nonempty (by simpa [empty] using layers)
      have sub : ∀ a ∈ layer, a ∈ first :: rest := fun a mem => (mem_ready.mp mem).1
      have sorted := sortByKey_eq_of_perm layers fun a ha b hb => distinct a (sub a ha) b (sub b hb)
      have contains (item : α) :
          layer.contains item = (ready needs' emitted (first' :: rest')).contains item := by
        rw [Bool.eq_iff_iff, List.contains_iff_mem, List.contains_iff_mem, layers.mem_iff]
      rw [emit_round nonempty', ← sorted]
      simp only [← contains]
      exact ih (perm.filter _) (fun a mem => same a (List.mem_of_mem_filter mem))
        fun a ha b hb => distinct a (List.mem_of_mem_filter ha) b (List.mem_of_mem_filter hb)

/-! ### Needs of needs -/

/-- Needs that lead back through others do not change which items are ready. -/
theorem ready_eq_of_reach (closed : ∀ a ∈ emitted, ∀ b ∈ needs a, b ∈ emitted)
    (direct : ∀ a ∈ remaining, ∀ b ∈ needs a, b ∈ needs' a)
    (reached : ∀ a ∈ remaining, ∀ b ∈ needs' a, Relation.TransGen (fun a b => b ∈ needs a) a b) :
    ready needs emitted remaining = ready needs' emitted remaining := by
  apply List.filter_congr
  intro a mem
  rw [Bool.eq_iff_iff]
  simp only [List.all_eq_true, List.contains_iff_mem]
  constructor
  · exact fun met b need => mem_of_reach closed met (reached a mem b need)
  · exact fun met b need => met b (direct a mem b need)

theorem emit_eq_of_reach {remaining emitted : List α}
    (closed : ∀ a ∈ emitted, ∀ b ∈ needs a, b ∈ emitted)
    (direct : ∀ a ∈ remaining, ∀ b ∈ needs a, b ∈ needs' a)
    (reached : ∀ a ∈ remaining, ∀ b ∈ needs' a, Relation.TransGen (fun a b => b ∈ needs a) a b) :
    emit needs key remaining emitted = emit needs' key remaining emitted := by
  fun_induction emit needs key remaining emitted with
  | case1 emitted => rw [emit]
  | case2 emitted first rest empty =>
    have stuck : ready needs' emitted (first :: rest) = [] := by
      rw [← ready_eq_of_reach closed direct reached]
      exact empty
    rw [emit_stuck stuck]
  | case3 emitted first rest nonempty ih =>
    have layers := ready_eq_of_reach closed direct reached
    have nonempty' : ready needs' emitted (first :: rest) ≠ [] := layers ▸ nonempty
    rw [emit_round nonempty', ← layers]
    apply ih
    · intro a mem b need
      rcases List.mem_append.mp mem with old | new
      · exact List.mem_append_left _ (closed a old b need)
      · exact List.mem_append_left _ ((mem_ready.mp (mem_sortByKey.mp new)).2 b need)
    · exact fun a mem => direct a (List.mem_of_mem_filter mem)
    · exact fun a mem => reached a (List.mem_of_mem_filter mem)

/-! ### Numbered items -/

section Numbered

variable {ι : Type} [DecidableEq ι] {f : ι → α} {number : ι → List ι} {numberKey : ι → κ}

theorem ready_map (inj : Function.Injective f) (need : ∀ i b, b ∈ needs (f i) ↔ ∃ j ∈ number i, f j = b)
    (emitted remaining : List ι) :
    ready needs (emitted.map f) (remaining.map f) = (ready number emitted remaining).map f := by
  rw [ready, ready, List.filter_map]
  congr 1
  refine List.filter_congr fun i _ => ?_
  rw [Function.comp_apply, Bool.eq_iff_iff]
  simp only [List.all_eq_true, List.contains_iff_mem, need]
  constructor
  · intro all j mem
    exact (List.mem_map_of_injective inj).mp (all (f j) ⟨j, mem, rfl⟩)
  · rintro all _ ⟨j, mem, rfl⟩
    exact List.mem_map_of_mem (all j mem)

/-- The emission of items is the emission of their numbers. -/
theorem emit_map (inj : Function.Injective f)
    (need : ∀ i b, b ∈ needs (f i) ↔ ∃ j ∈ number i, f j = b)
    (keys : ∀ i, key (f i) = numberKey i) (remaining emitted : List ι) :
    (emit needs key (remaining.map f) (emitted.map f)).toOption =
      (emit number numberKey remaining emitted).toOption.map (List.map f) := by
  fun_induction emit number numberKey remaining emitted with
  | case1 emitted => rw [List.map_nil, emit]; rfl
  | case2 emitted first rest empty =>
    have stuck : ready needs (emitted.map f) ((first :: rest).map f) = [] := by
      rw [ready_map inj need]
      exact List.map_eq_nil_iff.mpr empty
    rw [List.map_cons] at stuck ⊢
    rw [emit_stuck stuck]
    rfl
  | case3 emitted first rest nonempty ih =>
    set layer := ready number emitted (first :: rest) with layer_eq
    have layers : ready needs (emitted.map f) (f first :: rest.map f) = layer.map f :=
      ready_map inj need emitted (first :: rest)
    have sorted : sortByKey key (layer.map f) = (sortByKey numberKey layer).map f := by
      simp only [sortByKey]
      refine (List.map_insertionSort _ _ f layer fun a _ b _ => ?_).symm
      rw [keys, keys]
    have left : (f first :: rest.map f).filter (fun item => !(layer.map f).contains item) =
        ((first :: rest).filter fun item => !layer.contains item).map f := by
      rw [← List.map_cons, List.filter_map]
      congr 1
      refine List.filter_congr fun i _ => ?_
      rw [Function.comp_apply, Bool.eq_iff_iff]
      simp only [Bool.not_eq_true', Bool.eq_false_iff, Ne, List.contains_iff_mem,
        List.mem_map_of_injective inj]
    have some : layer.map f ≠ [] := fun empty => nonempty (List.map_eq_nil_iff.mp empty)
    rw [List.map_cons, emit_round (layers.symm ▸ some), layers, sorted, left, ← List.map_append]
    exact ih

end Numbered

end NpaCore.Layers
