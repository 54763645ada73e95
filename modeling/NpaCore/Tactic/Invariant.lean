import NpaCore.Tactic.Consistency

/-!
# Invariants of a machine proof

What one step does to a proof state, said once, and what is therefore true of every state
that a machine proof reaches, whatever its tactics compute.

## Main results

* `Step.effect`: what a step does.
* `assignedState_valid`: the state that an assignment builds is valid, so the last validation
  of a step never refuses it.
* `Reachable.invariant`: the numbers of the metavariables are the first ones there are, the
  open goals are the unassigned metavariables, and no limit of the options is exceeded.
-/

namespace NpaCore.Tactic

open NpaCore.Kernel (Allocator)
open NpaCore.Wire (Bytes Hash)

/-! ### Assigning keeps states consistent -/

section Assigning

variable {store allocated : MetaVarStore} {specs : List MachineNewGoalSpec} {id other : MetaVarId}
  {before after : List GoalId} {found : MachineMetaVar} {proofExpr : ProofExpr}

/-- The entries after an assignment: the assigned one, the other old ones and the new ones. -/
theorem get_assigned_cases (bounded : ∀ key ∈ store.keys, key < store.nextId)
    (allocates : Allocates store specs allocated) (here : store.get id = some found)
    {entry : MachineMetaVar} (get : (allocated.assign id proofExpr).get other = some entry) :
    (other = id ∧ entry = { found with assignment := some proofExpr }) ∨
      (other ≠ id ∧ other < store.nextId ∧ store.get other = some entry) ∨
      (other ≠ id ∧ other ∈ List.range' store.nextId specs.length ∧
        ∃ spec ∈ specs, entry = spec.toMeta other) := by
  have old : id < store.nextId := bounded id (MetaVarStore.mem_keys.mpr ⟨found, here⟩)
  by_cases same : other = id
  · subst same
    rw [MetaVarStore.get_assign_self, allocates.old other old, here] at get
    exact .inl ⟨rfl, (Option.some.inj get).symm⟩
  · right
    rw [MetaVarStore.get_assign_of_ne same] at get
    rcases allocates.get_cases bounded get with ⟨inside, get⟩ | ⟨new, spec⟩
    · exact .inl ⟨same, inside, get⟩
    · exact .inr ⟨same, new, spec⟩

theorem Consistent.assigned (consistent : Consistent store (before ++ id :: after))
    (allocates : Allocates store specs allocated) (here : store.get id = some found) :
    Consistent (allocated.assign id proofExpr)
      (before ++ List.range' store.nextId specs.length ++ after) := by
  have old : id < store.nextId := consistent.bounded id (MetaVarStore.mem_keys.mpr ⟨found, here⟩)
  have open_old : ∀ goal ∈ before ++ id :: after, goal < store.nextId := by
    intro goal mem
    obtain ⟨entry, get, _⟩ := (consistent.isOpen goal).mp mem
    exact consistent.bounded goal (MetaVarStore.mem_keys.mpr ⟨entry, get⟩)
  have nodup := consistent.nodup
  rw [List.nodup_append, List.nodup_cons] at nodup
  obtain ⟨nodupBefore, ⟨idAfter, nodupAfter⟩, apart⟩ := nodup
  have idBefore : id ∉ before := fun mem => apart id mem id List.mem_cons_self rfl
  constructor
  case numbered =>
    intro key entry get
    rcases get_assigned_cases consistent.bounded allocates here get with
      ⟨rfl, rfl⟩ | ⟨_, _, get⟩ | ⟨_, _, spec, _, rfl⟩
    · exact consistent.numbered key found here
    · exact consistent.numbered key entry get
    · exact ⟨rfl, rfl⟩
  case bounded =>
    intro key mem
    rw [MetaVarStore.keys_assign, allocates.keys, List.mem_append, List.mem_range'_1] at mem
    rw [MetaVarStore.nextId_assign, allocates.nextId]
    rcases mem with mem | new
    · exact Nat.lt_of_lt_of_le (consistent.bounded key mem) (Nat.le_add_right _ _)
    · exact new.2
  case nodup =>
    rw [List.append_assoc, List.nodup_append, List.nodup_append]
    refine ⟨nodupBefore, ⟨List.nodup_range', nodupAfter, ?_⟩, ?_⟩
    · intro goal new later mem same
      subst same
      rw [List.mem_range'_1] at new
      have low := open_old goal (by simp [mem])
      exact Nat.not_lt.mpr new.1 low
    · intro goal first later mem same
      subst same
      rw [List.mem_append, List.mem_range'_1] at mem
      rcases mem with new | mem
      · have low := open_old goal (by simp [first])
        exact Nat.not_lt.mpr new.1 low
      · exact apart goal first goal (List.mem_cons_of_mem _ mem) rfl
  case isOpen =>
    -- listed goals are unassigned, and unassigned ones are listed
    intro goal
    constructor
    · intro mem
      by_cases new : goal ∈ List.range' store.nextId specs.length
      · -- a new goal is unassigned
        obtain ⟨index, inside, rfl⟩ := List.mem_range'.mp new
        rw [Nat.one_mul]
        have get := allocates.new index inside _ (List.getElem?_eq_getElem inside)
        have apart : store.nextId + index ≠ id :=
          Nat.ne_of_gt (Nat.lt_of_lt_of_le old (Nat.le_add_right _ _))
        exact ⟨_, (MetaVarStore.get_assign_of_ne apart).trans get, rfl⟩
      · -- an old goal is not the assigned one
        have listed : goal ∈ before ++ id :: after := by
          simp only [List.mem_append, new, or_false, List.mem_cons] at mem ⊢
          exact mem.imp (fun first => first) .inr
        have differs : goal ≠ id := by
          rintro rfl
          simp [idBefore, idAfter, new] at mem
        obtain ⟨entry, get, unassigned⟩ := (consistent.isOpen goal).mp listed
        refine ⟨entry, ?_, unassigned⟩
        rw [MetaVarStore.get_assign_of_ne differs, allocates.old goal (open_old goal listed), get]
    · rintro ⟨entry, get, unassigned⟩
      rcases get_assigned_cases consistent.bounded allocates here get with
        ⟨rfl, rfl⟩ | ⟨differs, _, get⟩ | ⟨_, new, _⟩
      · cases unassigned
      · have listed := (consistent.isOpen goal).mpr ⟨entry, get, unassigned⟩
        simp only [List.mem_append, List.mem_cons, differs, false_or] at listed ⊢
        exact listed.imp .inl fun last => last
      · simp [new]

end Assigning

/-! ### Prepared snapshots -/

/-- What a prepared snapshot says about its state. -/
structure Selects (state : MachineProofState) (goalId : GoalId) (prepared : PreparedSnapshot)
    (before after : List GoalId) (found : MachineMetaVar) : Prop where
  consistent : Consistent state.metas state.openGoals
  state_eq : prepared.state = state
  goalId_eq : prepared.goal.id = goalId
  metaId_eq : prepared.goal.metaId = goalId
  context_eq : prepared.goal.context = found.context
  target_eq : prepared.goal.target = found.target
  openGoals_eq : state.openGoals = before ++ goalId :: after
  goalIndex_eq : prepared.goalIndex = before.length
  get_eq : state.metas.get goalId = some found
  unassigned : found.assignment = none

variable {goalId : GoalId}

theorem findIdx?_eq_splits {goals : List GoalId} {index : Nat}
    (h : goals.findIdx? (· = goalId) = some index) :
    ∃ before after, goals = before ++ goalId :: after ∧ index = before.length := by
  rw [List.findIdx?_eq_some_iff_getElem] at h
  obtain ⟨inside, here, _⟩ := h
  refine ⟨goals.take index, goals.drop (index + 1), ?_, ?_⟩
  · rw [decide_eq_true_eq] at here
    rw [← here, List.cons_getElem_drop_succ, List.take_append_drop]
  · rw [List.length_take]
    omega

variable {state : MachineProofState} {hashing : Hashing}

theorem prepare_eq_ok {prepared : PreparedSnapshot}
    (h : prepareMachineTacticSnapshot hashing state goalId = .ok prepared) :
    validateMachineProofState hashing state = .ok () ∧
      ∃ before after found, Selects state goalId prepared before after found := by
  simp only [prepareMachineTacticSnapshot, MachineProofState.goal, Result.bind_eq_ok,
    Result.okOr_eq_ok, Result.ensure_eq_ok, decide_eq_true_eq, Option.isNone_iff_eq_none,
    Except.ok.injEq] at h
  obtain ⟨_, valid, index, position, _, ⟨_, _, found, get, _, _, _, unassigned, rfl⟩, rfl⟩ := h
  obtain ⟨before, after, splits, rfl⟩ := findIdx?_eq_splits position
  have consistent := (validateMachineProofState_eq_ok.mp valid).2.2
  exact ⟨valid, before, after, found, consistent, rfl, rfl, rfl, rfl, rfl, splits, rfl, get,
    unassigned⟩

/-- Every open goal of a valid state can be prepared. -/
theorem exists_prepare (valid : validateMachineProofState hashing state = .ok ())
    (mem : goalId ∈ state.openGoals) :
    ∃ prepared, prepareMachineTacticSnapshot hashing state goalId = .ok prepared := by
  have consistent := (validateMachineProofState_eq_ok.mp valid).2.2
  obtain ⟨found, get, unassigned⟩ := (consistent.isOpen goalId).mp mem
  have position : ∃ index, state.openGoals.findIdx? (· = goalId) = some index := by
    rw [← Option.isSome_iff_exists, List.findIdx?_isSome, List.any_eq_true]
    exact ⟨goalId, mem, by simp⟩
  obtain ⟨index, position⟩ := position
  simp only [prepareMachineTacticSnapshot, MachineProofState.goal, valid, position, get,
    Result.ok_bind, Result.okOr, unassigned, (consistent.numbered goalId found get).2]
  simp [Result.ensure, mem, Result.ok_bind]

theorem spliceGoals_eq (before after added : List GoalId) (goalId : GoalId) :
    spliceGoals (before ++ goalId :: after) before.length added = before ++ added ++ after := by
  simp [spliceGoals]

/-! ### Valid results -/

@[simp] theorem refreshStateIdentity_metas (hashing : Hashing) (state : MachineProofState) :
    (refreshStateIdentity hashing state).metas = state.metas := rfl

@[simp] theorem refreshStateIdentity_openGoals (hashing : Hashing) (state : MachineProofState) :
    (refreshStateIdentity hashing state).openGoals = state.openGoals := rfl

@[simp] theorem refreshStateIdentity_env (hashing : Hashing) (state : MachineProofState) :
    (refreshStateIdentity hashing state).env = state.env := rfl

@[simp] theorem refreshStateIdentity_root (hashing : Hashing) (state : MachineProofState) :
    (refreshStateIdentity hashing state).root = state.root := rfl

/-- Recomputing the identity makes it fresh: no hash reads the fields it is stored in. -/
theorem freshIdentity_refresh
    (options : state.env.optionsFingerprint = hashing.optionsHash state.env.options)
    (env : state.env.envFingerprint = hashing.envHash state.env) :
    FreshIdentity hashing (refreshStateIdentity hashing state) :=
  ⟨options, env, rfl, rfl, rfl⟩

/-- Whatever is assigned, the state is valid. -/
theorem assignedState_valid {prepared : PreparedSnapshot}
    (h : prepareMachineTacticSnapshot hashing state goalId = .ok prepared) (proofExpr : ProofExpr)
    (specs : List MachineNewGoalSpec) :
    validateMachineProofState hashing
      (assignedState hashing state (allocateMetas hashing.sha256 state.metas specs).1 goalId proofExpr
        (spliceGoals state.openGoals prepared.goalIndex
          (List.range' state.metas.nextId specs.length))) = .ok () := by
  obtain ⟨valid, before, after, found, selects⟩ := prepare_eq_ok h
  obtain ⟨options, identity, consistent⟩ := validateMachineProofState_eq_ok.mp valid
  have allocates := allocateMetas_spec hashing.sha256 consistent.bounded specs
  rw [selects.openGoals_eq, selects.goalIndex_eq, spliceGoals_eq]
  rw [validateMachineProofState_eq_ok]
  -- options and environment are untouched, the identity is new, the store is consistent
  refine ⟨options, freshIdentity_refresh identity.options identity.env, ?_⟩
  apply Consistent.assigned _ allocates selects.get_eq
  rw [← selects.openGoals_eq]
  exact consistent

/-! ### The effect of a step -/

section Effect

variable {hashing : Hashing} {alloc : Allocator}

/-- What a step has found and done: the goal, the expression it assigned, and the goals it put in
    the place of the goal. -/
structure Effect (hashing : Hashing) (alloc : Allocator) (state next : MachineProofState)
    (goalId : GoalId) (proofExpr : ProofExpr) (specs : List MachineNewGoalSpec)
    (allocated : MetaVarStore) (before after : List GoalId) (found : MachineMetaVar) : Prop where
  valid : validateMachineProofState hashing state = .ok ()
  openGoals_eq : state.openGoals = before ++ goalId :: after
  get_eq : state.metas.get goalId = some found
  unassigned : found.assignment = none
  allocates : Allocates state.metas specs allocated
  openLimit : before.length + specs.length + after.length ≤ state.env.options.maxOpenGoals
  metaLimit : state.metas.len + specs.length ≤ state.env.options.maxMetas
  specs_checked : ∃ prepared, Selects state goalId prepared before after found ∧
    ∀ spec ∈ specs, ∃ fuel left, checkSubgoalSpec alloc prepared spec fuel = (.ok (), left)
  checked : ∃ fuel left result, checkProofExpr state.env.kernelEnv alloc state.root.universeParams
    allocated (List.range' state.metas.nextId specs.length) goalId proofExpr found.context
    found.target fuel = (.ok result, left)
  next_eq : next = assignedState hashing state allocated goalId proofExpr
    (before ++ List.range' state.metas.nextId specs.length ++ after)

theorem Step.effect {state next : MachineProofState} (h : Step hashing alloc state next) :
    ∃ goalId proofExpr specs allocated before after found,
      Effect hashing alloc state next goalId proofExpr specs allocated before after found := by
  obtain ⟨goalId, prepared, proofExpr, specs, budget, steps, fuel, delta, left, hprepared, run⟩ := h
  obtain ⟨valid, before, after, found, selects⟩ := prepare_eq_ok hprepared
  have allocates := allocateMetas_spec hashing.sha256 selects.consistent.bounded specs
  -- the stages of the source one after another, each with the fuel it leaves
  simp only [assignGoalWithBudgetAndSteps, Run.bind_eq_ok, Run.lift_eq_ok, Run.pure_eq_ok,
    Prod.mk.injEq, Result.okOr_eq_ok, selects.state_eq, selects.metaId_eq, selects.get_eq,
    Option.some.injEq] at run
  obtain ⟨_, _, ⟨rfl, rfl⟩, _, _, ⟨_, rfl⟩, _, _, ⟨limits, rfl⟩, _, middle, loop, _, _, ⟨_, rfl⟩,
    _, _, ⟨_, rfl⟩, result, last, checked, _, _, ⟨_, rfl⟩, ⟨rfl, rfl⟩, rfl⟩ := run
  simp only [ensureWithinLimits, Result.bind_eq_ok, Result.ensure_eq_ok, decide_eq_true_eq] at limits
  obtain ⟨_, _, _, openLimit, metaLimit⟩ := limits
  rw [allocateMetas_ids] at checked
  refine ⟨goalId, proofExpr, specs, _, before, after, found, valid, selects.openGoals_eq,
    selects.get_eq, selects.unassigned, allocates, ?_, metaLimit, ?_, ?_, ?_⟩
  · rw [selects.openGoals_eq, List.length_append, List.length_cons] at openLimit
    omega
  · exact ⟨prepared, selects, fun spec mem => Run.forEach_mem loop mem⟩
  · exact ⟨middle, last, result, checked⟩
  · rw [allocateMetas_ids, selects.openGoals_eq, selects.goalIndex_eq, spliceGoals_eq]

/-- The state that a step leaves is valid. -/
theorem Effect.next_valid {state next : MachineProofState} {proofExpr : ProofExpr}
    {specs : List MachineNewGoalSpec} {allocated : MetaVarStore} {before after : List GoalId}
    {found : MachineMetaVar}
    (effect : Effect hashing alloc state next goalId proofExpr specs allocated before after found) :
    validateMachineProofState hashing next = .ok () := by
  obtain ⟨options, identity, consistent⟩ := validateMachineProofState_eq_ok.mp effect.valid
  rw [effect.openGoals_eq] at consistent
  rw [effect.next_eq, validateMachineProofState_eq_ok]
  exact ⟨options, freshIdentity_refresh identity.options identity.env,
    consistent.assigned effect.allocates effect.get_eq⟩

end Effect

/-! ### Every reachable state -/

/-- What is true of every state of a machine proof. -/
structure Invariant (hashing : Hashing) (state : MachineProofState) : Prop where
  valid : validateMachineProofState hashing state = .ok ()
  keys : state.metas.keys = List.range state.metas.nextId
  created : ∀ id found, state.metas.get id = some found → found.creationIndex = id
  body : state.root.body = .metaVar 0
  root : ∃ found, state.metas.get 0 = some found ∧ found.context = [] ∧
    found.target = state.root.theoremType
  openLimit : state.openGoals.length ≤ state.env.options.maxOpenGoals
  metaLimit : state.metas.len ≤ state.env.options.maxMetas

namespace Invariant

variable {hashing : Hashing} {alloc : Allocator} {state next : MachineProofState}

theorem consistent (invariant : Invariant hashing state) :
    Consistent state.metas state.openGoals :=
  (validateMachineProofState_eq_ok.mp invariant.valid).2.2

theorem start {spec : MachineProofSpec} {env : MachineTacticEnv}
    (h : startMachineProof hashing alloc spec env = .ok state) : Invariant hashing state := by
  simp only [startMachineProof, Result.bind_eq_ok, Except.ok.injEq] at h
  obtain ⟨_, _, _, _, _, valid, rfl⟩ := h
  have options := (validateMachineProofState_eq_ok.mp valid).1
  simp only [validateOptions, Result.bind_eq_ok, Result.ensure_eq_ok, decide_eq_true_eq] at options
  obtain ⟨_, _, _, _, _, goals, metas⟩ := options
  have get : (initialState spec env zeroHash).metas.get 0 =
      some ⟨0, 0, [], spec.theoremType, none, 0⟩ := rfl
  constructor
  case valid => exact valid
  case keys => rfl
  case created =>
    intro id found here
    have mem := MetaVarStore.mem_keys.mpr ⟨found, here⟩
    obtain rfl : id = 0 := List.mem_singleton.mp mem
    obtain rfl := Option.some.inj (get.symm.trans here)
    rfl
  case body => rfl
  case root => exact ⟨_, get, rfl, rfl⟩
  case openLimit => exact Nat.one_le_iff_ne_zero.mpr goals
  case metaLimit => exact Nat.one_le_iff_ne_zero.mpr metas

theorem step (invariant : Invariant hashing state) (h : Step hashing alloc state next) :
    Invariant hashing next := by
  obtain ⟨goalId, proofExpr, specs, allocated, before, after, found, effect⟩ := h.effect
  have nextValid := effect.next_valid
  have consistent := invariant.consistent
  have allocates := effect.allocates
  have cases_ := fun {other entry}
      (here : (allocated.assign goalId proofExpr).get other = some entry) =>
    get_assigned_cases consistent.bounded allocates effect.get_eq here
  obtain rfl := effect.next_eq
  constructor
  case valid => exact nextValid
  case keys =>
    -- the first numbers, and the ones allocated after them
    change (allocated.assign goalId proofExpr).keys = List.range allocated.nextId
    have joined : List.range' 0 state.metas.nextId ++
        List.range' (0 + state.metas.nextId) specs.length = _ := List.range'_append_1
    rw [MetaVarStore.keys_assign, allocates.keys, allocates.nextId, invariant.keys,
      List.range_eq_range', List.range_eq_range', ← joined, Nat.zero_add]
  case created =>
    intro id entry here
    rcases cases_ here with ⟨rfl, rfl⟩ | ⟨_, _, old⟩ | ⟨_, _, spec, _, rfl⟩
    · exact invariant.created id found effect.get_eq
    · exact invariant.created id entry old
    · rfl
  case body => exact invariant.body
  case root =>
    obtain ⟨first, get, ctx, target⟩ := invariant.root
    have inside := consistent.bounded 0 (MetaVarStore.mem_keys.mpr ⟨first, get⟩)
    by_cases same : 0 = goalId
    · -- the root's own goal keeps its context and its target when it is assigned
      subst same
      obtain rfl := Option.some.inj (effect.get_eq.symm.trans get)
      refine ⟨{ found with assignment := some proofExpr }, ?_, ctx, target⟩
      exact MetaVarStore.get_assign_self.trans (by rw [allocates.old 0 inside, get]; rfl)
    · refine ⟨first, ?_, ctx, target⟩
      exact (MetaVarStore.get_assign_of_ne same).trans ((allocates.old 0 inside).trans get)
  case openLimit =>
    change (before ++ List.range' state.metas.nextId specs.length ++ after).length ≤ _
    rw [List.length_append, List.length_append, List.length_range']
    exact effect.openLimit
  case metaLimit =>
    change (allocated.assign goalId proofExpr).len ≤ _
    rw [MetaVarStore.len_assign, allocates.len]
    exact effect.metaLimit

theorem later (invariant : Invariant hashing state) (h : Later hashing alloc state next) :
    Invariant hashing next := by
  induction h with
  | refl => exact invariant
  | step _ now ih => exact ih.step now

/-- The counter of metavariables is their number, so it stays within the limit of the options. -/
theorem nextId_le (invariant : Invariant hashing state) :
    state.metas.nextId ≤ state.env.options.maxMetas := by
  have len := invariant.metaLimit
  rw [← MetaVarStore.len_keys, invariant.keys, List.length_range] at len
  exact len

end Invariant

theorem Reachable.invariant {alloc : Allocator}
    (h : Reachable hashing alloc state) : Invariant hashing state := by
  obtain ⟨spec, env, first, started, later⟩ := h
  exact (Invariant.start started).later later

/-- Every state that a proof reaches is valid; its metavariables have the first numbers there are,
    its open goals are the unassigned ones, each once, and any of them can be worked on; no limit
    of the options is exceeded. -/
theorem reachable_wellFormed {hashing : Hashing} {alloc : Allocator} {state : MachineProofState}
    (h : Reachable hashing alloc state) :
    validateMachineProofState hashing state = .ok () ∧
      state.metas.keys = List.range state.metas.nextId ∧
      state.metas.nextId ≤ state.env.options.maxMetas ∧
      state.openGoals.length ≤ state.env.options.maxOpenGoals ∧ state.openGoals.Nodup ∧
      (∀ id, id ∈ state.openGoals ↔
        ∃ found, state.metas.get id = some found ∧ found.assignment = none) ∧
      ∀ id ∈ state.openGoals,
        ∃ prepared, prepareMachineTacticSnapshot hashing state id = .ok prepared := by
  have invariant := h.invariant
  have consistent := invariant.consistent
  refine ⟨invariant.valid, invariant.keys, invariant.nextId_le, invariant.openLimit,
    consistent.nodup, consistent.isOpen, ?_⟩
  intro id mem
  exact exists_prepare invariant.valid mem

theorem reachable_wellFormed_exampleRun : ∃ state,
    Reachable exampleHashing Kernel.noReuse state ∧ state.metas = exampleMetas propSort ∧
      state.metas.keys = List.range state.metas.nextId := by
  obtain ⟨state, _, reachable, _, metas⟩ := exampleRuns_prop.reachable
  obtain ⟨_, keys, _⟩ := reachable_wellFormed reachable
  exact ⟨state, reachable, metas, keys⟩

end NpaCore.Tactic
