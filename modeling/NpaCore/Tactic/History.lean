import NpaCore.Tactic.Invariant

/-!
# The history of a machine proof

What steps never undo. The theorem and the environment stay; a metavariable keeps its context
and its target, and its assignment once it has one; a goal that is no longer open stays closed.
The goals that come out of a goal stand where it stood.

## Main result

`Later.keeps`: how every later state of a proof relates to an earlier one.
-/

namespace NpaCore.Tactic

open NpaCore.Kernel (Allocator)
open NpaCore.Wire (Bytes)

/-- A metavariable later on: as it was, or assigned meanwhile. -/
def Follows (earlier later : MachineMetaVar) : Prop :=
  later = earlier ∨
    earlier.assignment = none ∧ ∃ expr, later = { earlier with assignment := some expr }

/-- A store later on. -/
structure Extends (earlier later : MetaVarStore) : Prop where
  nextId_le : earlier.nextId ≤ later.nextId
  follows : ∀ id found, earlier.get id = some found →
    ∃ entry, later.get id = some entry ∧ Follows found entry

/-- The open goals later on: each goal is still open, or it is assigned and newer goals stand in
    its place. -/
def GoalsFollow (state next : MachineProofState) (replaced : GoalId → List GoalId) : Prop :=
  next.openGoals = state.openGoals.flatMap replaced ∧
    ∀ goal ∈ state.openGoals, replaced goal = [goal] ∨
      (∀ other ∈ replaced goal, state.metas.nextId ≤ other) ∧
        ∃ entry expr, next.metas.get goal = some entry ∧ entry.assignment = some expr

structure History (state next : MachineProofState) : Prop where
  root : next.root = state.root
  env : next.env = state.env
  metas : Extends state.metas next.metas
  goals : ∃ replaced, GoalsFollow state next replaced

/-! ### Composition -/

theorem Follows.trans {first second third : MachineMetaVar} (h : Follows first second)
    (h' : Follows second third) : Follows first third := by
  rcases h with rfl | ⟨unassigned, expr, rfl⟩
  · exact h'
  · rcases h' with rfl | ⟨assigned, _⟩
    · exact .inr ⟨unassigned, expr, rfl⟩
    · cases assigned

variable {earlier later : MachineMetaVar}

theorem Follows.assigned (h : Follows earlier later)
    {expr : ProofExpr} (assigned : earlier.assignment = some expr) : later = earlier := by
  rcases h with same | ⟨unassigned, _⟩
  · exact same
  · rw [assigned] at unassigned
    cases unassigned

theorem Follows.context (h : Follows earlier later) :
    later.context = earlier.context := by
  rcases h with rfl | ⟨_, _, rfl⟩
  · rfl
  · rfl

theorem Follows.target (h : Follows earlier later) :
    later.target = earlier.target := by
  rcases h with rfl | ⟨_, _, rfl⟩
  · rfl
  · rfl

namespace Extends

variable {store middle later : MetaVarStore}

theorem refl (store : MetaVarStore) : Extends store store :=
  ⟨Nat.le_refl _, fun _ found get => ⟨found, get, .inl rfl⟩⟩

theorem trans (h : Extends store middle) (h' : Extends middle later) : Extends store later := by
  constructor
  · exact Nat.le_trans h.nextId_le h'.nextId_le
  · intro id found get
    obtain ⟨entry, get, first⟩ := h.follows id found get
    obtain ⟨last, get, second⟩ := h'.follows id entry get
    exact ⟨last, get, first.trans second⟩

/-- An assignment stays. -/
theorem assigned (h : Extends store later) {id : MetaVarId} {found : MachineMetaVar}
    {expr : ProofExpr} (get : store.get id = some found) (assigned : found.assignment = some expr) :
    later.get id = some found := by
  obtain ⟨entry, get', follows⟩ := h.follows id found get
  rw [get', follows.assigned assigned]

end Extends

theorem GoalsFollow.trans {state middle next : MachineProofState}
    {replaced replaced' : GoalId → List GoalId} (first : Extends state.metas middle.metas)
    (second : Extends middle.metas next.metas) (h : GoalsFollow state middle replaced)
    (h' : GoalsFollow middle next replaced') :
    GoalsFollow state next fun goal => (replaced goal).flatMap replaced' := by
  obtain ⟨goals, each⟩ := h
  obtain ⟨goals', each'⟩ := h'
  constructor
  · rw [goals', goals, List.flatMap_assoc]
  · intro goal mem
    have within : ∀ other ∈ replaced goal, other ∈ middle.openGoals := fun other here =>
      goals ▸ List.mem_flatMap.mpr ⟨goal, mem, here⟩
    rcases each goal mem with same | ⟨newer, entry, expr, get, assigned⟩
    · -- the goal was still open in the middle
      simp only [same, List.flatMap_singleton]
      rcases each' goal (within goal (by simp [same])) with same' | ⟨newer, closed⟩
      · exact .inl same'
      · exact .inr ⟨fun other here => Nat.le_trans first.nextId_le (newer other here), closed⟩
    · -- the goal was closed already, and what replaces the goals in its place is new as well
      right
      refine ⟨?_, entry, expr, second.assigned get assigned, assigned⟩
      intro other here
      obtain ⟨parent, parentHere, here⟩ := List.mem_flatMap.mp here
      rcases each' parent (within parent parentHere) with same' | ⟨newer', _⟩
      · rw [same', List.mem_singleton] at here
        exact here ▸ newer parent parentHere
      · exact Nat.le_trans first.nextId_le (newer' other here)

namespace History

variable {state middle next : MachineProofState}

theorem refl (state : MachineProofState) : History state state := by
  refine ⟨rfl, rfl, .refl _, fun goal => [goal], ?_, fun _ _ => .inl rfl⟩
  simp

theorem trans (h : History state middle) (h' : History middle next) : History state next := by
  obtain ⟨replaced, goals⟩ := h.goals
  obtain ⟨replaced', goals'⟩ := h'.goals
  exact ⟨h'.root.trans h.root, h'.env.trans h.env, h.metas.trans h'.metas, _,
    goals.trans h.metas h'.metas goals'⟩

end History

/-! ### One step -/

/-- Assigning extends the store. -/
theorem extends_assigned {store : MetaVarStore} {id : MetaVarId} {found : MachineMetaVar}
    {expr : ProofExpr} (here : store.get id = some found) (unassigned : found.assignment = none) :
    Extends store (store.assign id expr) := by
  constructor
  · exact Nat.le_refl _
  · intro other entry get
    by_cases same : other = id
    · subst same
      obtain rfl := Option.some.inj (here.symm.trans get)
      refine ⟨{ found with assignment := some expr }, ?_, .inr ⟨unassigned, expr, rfl⟩⟩
      rw [MetaVarStore.get_assign_self, get]
      rfl
    · exact ⟨entry, (MetaVarStore.get_assign_of_ne same).trans get, .inl rfl⟩

section Step

variable {hashing : Hashing} {alloc : Allocator} {state next : MachineProofState}
  {goalId : GoalId} {proofExpr : ProofExpr} {specs : List MachineNewGoalSpec}
  {allocated : MetaVarStore} {before after : List GoalId} {found : MachineMetaVar}

theorem Effect.consistent
    (effect : Effect hashing alloc state next goalId proofExpr specs allocated before after found) :
    Consistent state.metas (before ++ goalId :: after) :=
  effect.openGoals_eq ▸ (validateMachineProofState_eq_ok.mp effect.valid).2.2

/-- Allocating extends the store: the new numbers are above the old ones. -/
theorem extends_allocated (bounded : ∀ id ∈ state.metas.keys, id < state.metas.nextId)
    (allocates : Allocates state.metas specs allocated) : Extends state.metas allocated := by
  constructor
  · rw [allocates.nextId]
    exact Nat.le_add_right _ _
  · intro id entry get
    have inside := bounded id (MetaVarStore.mem_keys.mpr ⟨entry, get⟩)
    exact ⟨entry, (allocates.old id inside).trans get, .inl rfl⟩

theorem extends_assign (bounded : ∀ id ∈ state.metas.keys, id < state.metas.nextId)
    (allocates : Allocates state.metas specs allocated)
    (here : state.metas.get goalId = some found) (unassigned : found.assignment = none) :
    Extends state.metas (allocated.assign goalId proofExpr) := by
  have inside := bounded goalId (MetaVarStore.mem_keys.mpr ⟨found, here⟩)
  have old := (allocates.old goalId inside).trans here
  exact (extends_allocated bounded allocates).trans (extends_assigned old unassigned)

theorem Effect.history
    (effect : Effect hashing alloc state next goalId proofExpr specs allocated before after found) :
    History state next := by
  have consistent := effect.consistent
  have kept : Extends state.metas (allocated.assign goalId proofExpr) :=
    extends_assign consistent.bounded effect.allocates effect.get_eq effect.unassigned
  have nodup := consistent.nodup
  rw [List.nodup_append, List.nodup_cons] at nodup
  obtain ⟨_, ⟨idAfter, _⟩, apart⟩ := nodup
  have idBefore : goalId ∉ before := fun mem => apart goalId mem goalId List.mem_cons_self rfl
  obtain rfl := effect.next_eq
  let replaced (goal : GoalId) : List GoalId :=
    if goal = goalId then List.range' state.metas.nextId specs.length else [goal]
  -- the lists before and after the goal do not contain it, and stay as they are
  have others : ∀ goals : List GoalId, goalId ∉ goals → goals.flatMap replaced = goals := by
    intro goals absent
    induction goals with
    | nil => rfl
    | cons goal rest ih =>
      rw [List.mem_cons, not_or] at absent
      rw [List.flatMap_cons, ih absent.2]
      simp [replaced, Ne.symm absent.1]
  refine ⟨rfl, rfl, kept, replaced, ?_, ?_⟩
  · change before ++ _ ++ after = state.openGoals.flatMap replaced
    rw [effect.openGoals_eq, List.flatMap_append, List.flatMap_cons, others before idBefore,
      others after idAfter, List.append_assoc]
    simp [replaced]
  · intro goal mem
    by_cases same : goal = goalId
    · right
      subst same
      constructor
      · intro other here
        simp only [replaced, if_pos] at here
        exact (List.mem_range'_1.mp here).1
      · refine ⟨{ found with assignment := some proofExpr }, proofExpr, ?_, rfl⟩
        have inside := consistent.bounded goal (MetaVarStore.mem_keys.mpr ⟨found, effect.get_eq⟩)
        exact MetaVarStore.get_assign_self.trans
          (by rw [effect.allocates.old goal inside, effect.get_eq]; rfl)
    · exact .inl (by simp [replaced, same])

end Step

variable {state next : MachineProofState}

/-- A later state of a proof has the theorem and the environment of an earlier one, its
    metavariables with their contexts, targets and assignments, and its goals in their order. -/
theorem Later.keeps {hashing : Hashing} {alloc : Allocator}
    (h : Later hashing alloc state next) : History state next := by
  induction h with
  | refl => exact .refl state
  | step _ now ih =>
    obtain ⟨goalId, proofExpr, specs, allocated, before, after, found, effect⟩ := now.effect
    exact ih.trans effect.history

theorem start_eq_ok {hashing : Hashing} {alloc : Allocator} {spec : MachineProofSpec}
    {env : MachineTacticEnv} {state : MachineProofState}
    (h : startMachineProof hashing alloc spec env = .ok state) :
    state.env = env ∧ state.root = ⟨spec.module, spec.theoremName, spec.sourceIndex,
      spec.universeParams, spec.theoremType, .metaVar 0⟩ := by
  simp only [startMachineProof, Result.bind_eq_ok, Except.ok.injEq] at h
  obtain ⟨_, _, _, _, _, _, rfl⟩ := h
  exact ⟨rfl, rfl⟩

/-- Where a step has been made, the states before and after it are valid. -/
theorem Later.valid {hashing : Hashing} {alloc : Allocator} (h : Later hashing alloc state next) :
    next = state ∨ validateMachineProofState hashing state = .ok () ∧
      validateMachineProofState hashing next = .ok () := by
  induction h with
  | refl => exact .inl rfl
  | step _ now ih =>
    obtain ⟨_, _, _, _, _, _, _, effect⟩ := now.effect
    right
    rcases ih with rfl | ⟨valid, _⟩
    · exact ⟨effect.valid, effect.next_valid⟩
    · exact ⟨valid, effect.next_valid⟩

/-- What is open later is open now or has a new number. -/
theorem GoalsFollow.mem_openGoals {replaced : GoalId → List GoalId}
    (h : GoalsFollow state next replaced) {goal : GoalId} (mem : goal ∈ next.openGoals) :
    goal ∈ state.openGoals ∨ state.metas.nextId ≤ goal := by
  rw [h.1] at mem
  obtain ⟨parent, parentOpen, here⟩ := List.mem_flatMap.mp mem
  rcases h.2 parent parentOpen with same | ⟨newer, _⟩
  · rw [same, List.mem_singleton] at here
    exact .inl (here ▸ parentOpen)
  · exact .inr (newer goal here)

/-- Whatever steps follow: the theorem and the environment stay, every metavariable keeps its
    context, its target and its assignment, a closed goal stays closed, and the goals that come
    out of a goal stand where it stood. -/
theorem later_monotone {hashing : Hashing} {alloc : Allocator} {state next : MachineProofState}
    (h : Later hashing alloc state next) :
    next.root = state.root ∧ next.env = state.env ∧
      (∀ id found, state.metas.get id = some found → ∃ entry, next.metas.get id = some entry ∧
        entry.context = found.context ∧ entry.target = found.target ∧
        ∀ expr, found.assignment = some expr → entry.assignment = some expr) ∧
      (∀ id ∈ state.metas.keys, id ∉ state.openGoals → id ∉ next.openGoals) ∧
      ∃ replaced : GoalId → List GoalId, next.openGoals = state.openGoals.flatMap replaced ∧
        ∀ goal ∈ state.openGoals, replaced goal = [goal] ∨
          goal ∉ next.openGoals ∧ ∀ other ∈ replaced goal, state.metas.nextId ≤ other := by
  have history := h.keeps
  obtain ⟨replaced, goals⟩ := history.goals
  have metas : ∀ id found, state.metas.get id = some found → ∃ entry,
      next.metas.get id = some entry ∧ entry.context = found.context ∧
        entry.target = found.target ∧
        ∀ expr, found.assignment = some expr → entry.assignment = some expr := by
    intro id found get
    obtain ⟨entry, get', follows⟩ := history.metas.follows id found get
    refine ⟨entry, get', follows.context, follows.target, ?_⟩
    intro expr assigned
    rw [follows.assigned assigned, assigned]
  rcases h.valid with rfl | ⟨valid, nextValid⟩
  · exact ⟨rfl, rfl, metas, fun _ _ closed => closed, fun goal => [goal], by simp, by simp⟩
  · have consistent := (validateMachineProofState_eq_ok.mp valid).2.2
    have nextConsistent := (validateMachineProofState_eq_ok.mp nextValid).2.2
    refine ⟨history.root, history.env, metas, ?_, replaced, goals.1, ?_⟩
    · -- an old number that is open later would be new
      intro id mem closed stillOpen
      rcases goals.mem_openGoals stillOpen with listed | new
      · exact closed listed
      · exact Nat.lt_irrefl _ (Nat.lt_of_lt_of_le (consistent.bounded id mem) new)
    · intro goal mem
      rcases goals.2 goal mem with same | ⟨newer, entry, expr, get, assigned⟩
      · exact .inl same
      · refine .inr ⟨?_, newer⟩
        intro stillOpen
        obtain ⟨found, get', unassigned⟩ := (nextConsistent.isOpen goal).mp stillOpen
        obtain rfl := Option.some.inj (get.symm.trans get')
        rw [assigned] at unassigned
        cases unassigned

theorem later_monotone_exampleRun : ∃ start state,
    exampleStart propSort = .ok start ∧ Later exampleHashing Kernel.noReuse start state ∧
      state.openGoals = [] ∧ state.env = start.env := by
  obtain ⟨start, middle, state, started, _, first, second, openGoals, _⟩ := exampleRuns_prop.steps
  have later := (Later.refl.step first).step second
  exact ⟨start, state, started, later, openGoals, (later_monotone later).2.1⟩

theorem ExampleRuns.history {domain : Kernel.Expr} (run : ExampleRuns domain) : ∃ state,
    exampleRun domain = .ok state ∧ Reachable exampleHashing Kernel.noReuse state ∧
      state.openGoals = [] ∧ state.metas = exampleMetas domain ∧ state.env = exampleEnv ∧
      state.root = ⟨⟨["M"]⟩, ⟨["M", "id"]⟩, 0, [], .pi "x" domain propSort, .metaVar 0⟩ := by
  obtain ⟨start, middle, state, started, runs, first, second, openGoals, metas⟩ := run.steps
  have later := (Later.refl.step first).step second
  have history := later.keeps
  obtain ⟨env, root⟩ := start_eq_ok started
  exact ⟨state, runs, ⟨_, _, start, started, later⟩, openGoals, metas, history.env.trans env,
    history.root.trans root⟩

end NpaCore.Tactic
