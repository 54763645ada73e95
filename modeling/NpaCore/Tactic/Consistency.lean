import Mathlib.Data.List.Range
import NpaCore.Tactic.Assignment

/-!
# Consistent proof states

What `validate_machine_proof_state` checks, as a property of the state, and that an
assignment keeps it. So an assignment in a validated state is never refused because its
result is invalid, and the last validation finds nothing.

## Main results

* `validateMachineProofState_eq_ok`: the state is valid exactly when its options are, its
  identity is fresh, and its metavariables and open goals are consistent.
* `allocateMetas_spec`: the new metavariables have the next numbers and leave the old ones alone.
-/

namespace NpaCore.Tactic

open NpaCore.Kernel (Allocator)
open NpaCore.Wire (Bytes Hash)

/-! ### The store -/

namespace MetaVarStore

variable {store : MetaVarStore} {id other : MetaVarId} {found : MachineMetaVar} {expr : ProofExpr}

theorem get_eq_some : store.get id = some found ↔ (id, found) ∈ store.metas :=
  OrderedMap.get?_eq_some (fun _ _ => Nat.compare_eq_eq.mp) store.sorted

theorem get_eq_none : store.get id = none ↔ id ∉ store.keys :=
  OrderedMap.get?_eq_none fun _ _ => Nat.compare_eq_eq.mp

theorem mem_keys : id ∈ store.keys ↔ ∃ found, store.get id = some found := by
  rw [← not_iff_not, ← get_eq_none, Option.eq_none_iff_forall_ne_some, not_exists]

@[simp] theorem nextId_assign : (store.assign id expr).nextId = store.nextId := rfl

theorem metas_assign : (store.assign id expr).metas =
    OrderedMap.adjust compare id (fun old => { old with assignment := some expr }) store.metas := rfl

@[simp] theorem keys_assign : (store.assign id expr).keys = store.keys := by
  rw [keys, metas_assign, OrderedMap.keys_adjust, keys]

@[simp] theorem len_keys : store.keys.length = store.len := by simp [keys, len]

@[simp] theorem len_assign : (store.assign id expr).len = store.len := by
  rw [← len_keys, keys_assign, len_keys]

theorem get_assign_self :
    (store.assign id expr).get id =
      (store.get id).map fun old => { old with assignment := some expr } := by
  rw [get, metas_assign, OrderedMap.get?_adjust_self, get]

theorem get_assign_of_ne (differs : other ≠ id) :
    (store.assign id expr).get other = store.get other := by
  rw [get, metas_assign, OrderedMap.get?_adjust_of_ne (fun _ _ => Nat.compare_eq_eq.mp) differs, get]

/-- A metavariable with a greater number than all others goes to the end. -/
theorem metas_insert (greatest : ∀ key ∈ store.keys, key < id) :
    (store.insert id found).metas = store.metas ++ [(id, found)] :=
  OrderedMap.insertWith_of_greatest fun key mem => Nat.compare_eq_gt.mpr (greatest key mem)

theorem keys_insert (greatest : ∀ key ∈ store.keys, key < id) :
    (store.insert id found).keys = store.keys ++ [id] := by
  rw [keys, metas_insert greatest]
  simp [keys]

theorem get_insert_self (greatest : ∀ key ∈ store.keys, key < id) :
    (store.insert id found).get id = some found := by
  have absent : store.get id = none :=
    get_eq_none.mpr fun mem => Nat.lt_irrefl id (greatest id mem)
  rw [get] at absent ⊢
  rw [metas_insert greatest, OrderedMap.get?_concat, absent]
  simp

theorem get_insert_of_ne (greatest : ∀ key ∈ store.keys, key < id) (differs : other ≠ id) :
    (store.insert id found).get other = store.get other := by
  rw [get, metas_insert greatest, OrderedMap.get?_concat, if_neg (mt Nat.compare_eq_eq.mp differs),
    Option.or_none, get]

end MetaVarStore

/-! ### Allocation -/

/-- What the allocation of metavariables leaves. -/
structure Allocates (store : MetaVarStore) (specs : List MachineNewGoalSpec)
    (allocated : MetaVarStore) : Prop where
  nextId : allocated.nextId = store.nextId + specs.length
  keys : allocated.keys = store.keys ++ List.range' store.nextId specs.length
  old : ∀ id < store.nextId, allocated.get id = store.get id
  new : ∀ index < specs.length, ∀ spec, specs[index]? = some spec →
    allocated.get (store.nextId + index) = some (spec.toMeta (store.nextId + index))

theorem allocateMetas_ids (sha256 : Bytes → Hash) (store : MetaVarStore)
    (specs : List MachineNewGoalSpec) :
    (allocateMetas sha256 store specs).2.map MachineNewMetaDelta.metaId =
      List.range' store.nextId specs.length := by
  induction specs generalizing store with
  | nil => rfl
  | cons spec rest ih =>
    simp only [allocateMetas, List.map_cons, List.length_cons, List.range'_succ]
    congr 1
    exact ih _

/-- By induction on the requests: the first new number is greater than all numbers there are. -/
theorem allocateMetas_spec (sha256 : Bytes → Hash) {store : MetaVarStore}
    (bounded : ∀ id ∈ store.keys, id < store.nextId) (specs : List MachineNewGoalSpec) :
    Allocates store specs (allocateMetas sha256 store specs).1 := by
  induction specs generalizing store with
  | nil => exact ⟨rfl, by simp [allocateMetas], fun _ _ => rfl, by simp⟩
  | cons spec rest ih =>
    let numbered : MetaVarStore := { store with nextId := store.nextId + 1 }
    let inserted := numbered.insert store.nextId (spec.toMeta store.nextId)
    have greatest : ∀ key ∈ numbered.keys, key < store.nextId := bounded
    have keys : inserted.keys = store.keys ++ [store.nextId] :=
      MetaVarStore.keys_insert greatest
    have bounded' : ∀ id ∈ inserted.keys, id < inserted.nextId := by
      intro id mem
      rw [keys, List.mem_append, List.mem_singleton] at mem
      rcases mem with mem | rfl
      · exact Nat.lt_succ_of_lt (bounded id mem)
      · exact Nat.lt_succ_self _
    have below := ih bounded'
    have self : inserted.get store.nextId = some (spec.toMeta store.nextId) :=
      MetaVarStore.get_insert_self greatest
    constructor
    · rw [List.length_cons, ← Nat.add_assoc, Nat.add_right_comm]
      exact below.nextId
    · rw [List.length_cons, List.range'_succ]
      refine below.keys.trans ?_
      rw [keys, List.append_assoc]
      rfl
    · intro id old
      refine (below.old id (Nat.lt_succ_of_lt old)).trans ?_
      exact MetaVarStore.get_insert_of_ne greatest (Nat.ne_of_lt old)
    · intro index inside other at_index
      cases index with
      | zero =>
        obtain rfl : spec = other := by simpa using at_index
        exact (below.old store.nextId (Nat.lt_succ_self _)).trans self
      | succ index =>
        have later := below.new index (by simpa using inside) other (by simpa using at_index)
        have number : store.nextId + (index + 1) = inserted.nextId + index := by
          change _ = store.nextId + 1 + index
          omega
        rw [number]
        exact later

namespace Allocates

variable {store allocated : MetaVarStore} {specs : List MachineNewGoalSpec}

theorem len (allocates : Allocates store specs allocated) :
    allocated.len = store.len + specs.length := by
  rw [← MetaVarStore.len_keys, allocates.keys]
  simp

/-- Every metavariable is an old one or an unassigned new one. -/
theorem get_cases (allocates : Allocates store specs allocated)
    (bounded : ∀ id ∈ store.keys, id < store.nextId) {id : MetaVarId} {found : MachineMetaVar}
    (get : allocated.get id = some found) :
    (id < store.nextId ∧ store.get id = some found) ∨
      (id ∈ List.range' store.nextId specs.length ∧ ∃ spec ∈ specs, found = spec.toMeta id) := by
  have mem := MetaVarStore.mem_keys.mpr ⟨found, get⟩
  rw [allocates.keys, List.mem_append] at mem
  rcases mem with old | new
  · left
    have inside := bounded id old
    exact ⟨inside, by rw [← allocates.old id inside, get]⟩
  · right
    refine ⟨new, ?_⟩
    obtain ⟨index, inside, rfl⟩ := List.mem_range'.mp new
    rw [Nat.one_mul] at get ⊢
    have at_index := List.getElem?_eq_getElem inside
    rw [allocates.new index inside _ at_index] at get
    exact ⟨_, List.getElem_mem inside, (Option.some.inj get).symm⟩

end Allocates

/-! ### Consistency -/

/-- The metavariables and the open goals fit together. -/
structure Consistent (metas : MetaVarStore) (openGoals : List GoalId) : Prop where
  numbered : ∀ id found, metas.get id = some found → found.id = id ∧ found.goalId = id
  bounded : ∀ id ∈ metas.keys, id < metas.nextId
  nodup : openGoals.Nodup
  isOpen : ∀ id, id ∈ openGoals ↔ ∃ found, metas.get id = some found ∧ found.assignment = none

/-- The identity of a state is the one its other fields determine. -/
structure FreshIdentity (hashing : Hashing) (state : MachineProofState) : Prop where
  options : state.env.optionsFingerprint = hashing.optionsHash state.env.options
  env : state.env.envFingerprint = hashing.envHash state.env
  reserved : state.reservedLocalNames = recomputeReservedLocalNames state
  fingerprint : state.fingerprint = machineProofStateHash hashing state
  stateId : state.stateId = hexHash (machineProofStateHash hashing state)

theorem validateIdentity_eq_ok {hashing : Hashing} {state : MachineProofState} {u : Unit} :
    validateIdentity hashing state = .ok u ↔ FreshIdentity hashing state := by
  simp only [validateIdentity, Result.bind_eq_ok, Result.ensure_eq_ok, decide_eq_true_eq]
  constructor
  · rintro ⟨_, options, _, env, _, reserved, _, fingerprint, stateId⟩
    exact ⟨options, env, reserved, fingerprint, stateId⟩
  · rintro ⟨options, env, reserved, fingerprint, stateId⟩
    exact ⟨(), options, (), env, (), reserved, (), fingerprint, stateId⟩

theorem validateMetaIds_eq_ok {store : MetaVarStore} {u : Unit} :
    validateMetaIds store = .ok u ↔
      (∀ id found, store.get id = some found → found.id = id ∧ found.goalId = id) ∧
        ∀ id ∈ store.keys, id < store.nextId := by
  simp only [validateMetaIds, Result.forEach_eq_ok, Result.bind_eq_ok, Result.ensure_eq_ok,
    decide_eq_true_eq, MetaVarStore.get_eq_some]
  constructor
  · intro valid
    constructor
    · intro id found mem
      obtain ⟨_, ⟨same, goal⟩, _⟩ := valid (id, found) mem
      exact ⟨same.symm, goal⟩
    · intro id mem
      obtain ⟨entry, at_entry, rfl⟩ := List.mem_map.mp mem
      obtain ⟨_, ⟨same, _⟩, below⟩ := valid entry at_entry
      exact same ▸ below
  · rintro ⟨numbered, bounded⟩ entry mem
    obtain ⟨same, goal⟩ := numbered entry.1 entry.2 mem
    exact ⟨(), ⟨same.symm, goal⟩, same ▸ bounded entry.1 (List.mem_map_of_mem mem)⟩

/-- The loop over the open goals, from the goals it has seen. -/
theorem validateOpenGoals_eq_ok {store : MetaVarStore} {goals seen after : List GoalId} :
    Result.foldEach goals seen (validateOpenGoal store) = .ok after ↔
      (goals.Nodup ∧ (∀ id ∈ goals, id ∉ seen) ∧
        ∀ id ∈ goals, ∃ found, store.get id = some found ∧ found.assignment = none) ∧
      after = goals.reverse ++ seen := by
  induction goals generalizing seen with
  | nil => simp [Result.foldEach_nil, eq_comm]
  | cons goal rest ih =>
    simp only [Result.foldEach_cons, validateOpenGoal, Result.bind_eq_ok, Result.ensure_eq_ok,
      Result.okOr_eq_ok, decide_eq_true_eq, Option.isNone_iff_eq_none, Except.ok.injEq, ih,
      List.nodup_cons, List.forall_mem_cons, List.reverse_cons, List.append_assoc]
    constructor
    · rintro ⟨_, ⟨_, fresh, found, get, _, unassigned, rfl⟩, ⟨nodup, apart, backed⟩, rfl⟩
      refine ⟨⟨⟨?_, nodup⟩, ⟨fresh, ?_⟩, ⟨found, get, unassigned⟩, backed⟩, rfl⟩
      · exact fun mem => apart goal mem List.mem_cons_self
      · exact fun id mem => mt (List.mem_cons_of_mem _) (apart id mem)
    · rintro ⟨⟨⟨new, nodup⟩, ⟨fresh, apart⟩, ⟨found, get, unassigned⟩, backed⟩, rfl⟩
      refine ⟨goal :: seen, ⟨(), fresh, found, get, (), unassigned, rfl⟩,
        ⟨nodup, ?_, backed⟩, rfl⟩
      intro id mem seenBefore
      rcases List.mem_cons.mp seenBefore with rfl | old
      · exact new mem
      · exact apart id mem old

theorem validateMachineProofState_eq_ok {hashing : Hashing} {state : MachineProofState} {u : Unit} :
    validateMachineProofState hashing state = .ok u ↔
      validateOptions state.env.options = .ok () ∧ FreshIdentity hashing state ∧
        Consistent state.metas state.openGoals := by
  simp only [validateMachineProofState, Result.bind_eq_ok, validateIdentity_eq_ok,
    validateMetaIds_eq_ok, validateOpenGoals_eq_ok, Result.forEach_eq_ok, validateMetaOpenness,
    Result.ensure_eq_ok, List.append_nil]
  constructor
  · rintro ⟨_, options, _, identity, _, ⟨numbered, bounded⟩, _, ⟨⟨nodup, _, backed⟩, rfl⟩, open_⟩
    refine ⟨options, identity, numbered, bounded, nodup, fun id => ⟨backed id, ?_⟩⟩
    rintro ⟨found, get, unassigned⟩
    obtain ⟨_, listed, _⟩ := open_ (id, found) (MetaVarStore.get_eq_some.mp get)
    simpa [unassigned, (numbered id found get).2] using listed
  · rintro ⟨options, identity, numbered, bounded, nodup, isOpen⟩
    refine ⟨(), options, (), identity, (), ⟨numbered, bounded⟩, _,
      ⟨⟨nodup, by simp, fun id mem => (isOpen id).mp mem⟩, rfl⟩, ?_⟩
    intro entry mem
    have get := MetaVarStore.get_eq_some.mpr mem
    have goal := (numbered entry.1 entry.2 get).2
    cases unassigned : entry.2.assignment with
    | none => simp [goal, (isOpen entry.1).mpr ⟨entry.2, get, unassigned⟩]
    | some assignment =>
      have closed : entry.1 ∉ state.openGoals := by
        rw [isOpen]
        rintro ⟨found, same, none⟩
        obtain rfl := Option.some.inj (get.symm.trans same)
        simp [unassigned] at none
      simp [goal, closed]

end NpaCore.Tactic
