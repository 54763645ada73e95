import NpaCore.Tactic.Invariant
import NpaCore.Tactic.Transfer

/-!
# Independent solutions

A solution closes a goal and leaves no new one. Whether it does so depends on the metavariables
that were assigned when it is tried, and these stay as they are; so solutions of different goals
that are each accepted in one state are accepted one after the other, in any order, and leave
the same state. Nor does what an assignment does depend on fuel that it has not used up.

## Main results

* `solveAll_perm`: the order of independent solutions does not matter.
* `assignGoalWithBudget_mono`: with a larger budget the same assignment has the same result.
-/

namespace NpaCore.Tactic

open NpaCore.Kernel (Allocator)

/-! ### Successful assignments -/

section Assignment

variable {hashing : Hashing} {alloc : Allocator} {state next : MachineProofState} {goalId : GoalId}
  {prepared : PreparedSnapshot} {before after : List GoalId} {found : MachineMetaVar}
  {proofExpr : ProofExpr} {specs : List MachineNewGoalSpec} {budget : TacticBudget} {steps : Nat}
  {fuel left : TacticRunFuel} {delta : MachineProofDelta}

/-- The number of nodes that an assignment is held to. -/
def assignmentNodes (proofExpr : ProofExpr) (specs : List MachineNewGoalSpec) : Nat :=
  proofExprNodeCount proofExpr +
    specs.foldl (fun nodes spec => nodes + coreExprNodeCount spec.target) 0

/-- The delta of an assignment, whose hash covers the rest of it. -/
def assignmentDelta (hashing : Hashing) (state next : MachineProofState) (goalId : GoalId)
    (proofExpr : ProofExpr) (specs : List MachineNewGoalSpec) : MachineProofDelta :=
  let allocated := allocateMetas hashing.sha256 state.metas specs
  let delta : MachineProofDelta := ⟨state.fingerprint, next.fingerprint, goalId, goalId,
    proofExprHash hashing.sha256 proofExpr, List.range' state.metas.nextId specs.length,
    allocated.2, zeroHash⟩
  { delta with deltaHash := machineProofDeltaHash hashing.sha256 delta }

/-- An assignment of a prepared goal succeeds exactly when it is within the limits and its parts
    are accepted; the last validation finds nothing. -/
theorem assignGoal_eq_ok
    (prepares : prepareMachineTacticSnapshot hashing state goalId = .ok prepared)
    (selects : Selects state goalId prepared before after found) :
    assignGoalWithBudgetAndSteps hashing alloc prepared goalId proofExpr specs budget steps fuel =
        (.ok (next, delta), left) ↔
      (ensureWithinLimits state goalId goalId specs.length budget = .ok () ∧
        steps ≤ budget.maxTacticSteps ∧ assignmentNodes proofExpr specs ≤ budget.maxExprNodes) ∧
      (∃ middle result,
        Run.forEach specs (checkSubgoalSpec alloc prepared) fuel = (.ok (), middle) ∧
          checkProofExpr state.env.kernelEnv alloc state.root.universeParams
            (allocateMetas hashing.sha256 state.metas specs).1
            (List.range' state.metas.nextId specs.length) goalId proofExpr found.context
            found.target middle = (.ok result, left)) ∧
      next = assignedState hashing state (allocateMetas hashing.sha256 state.metas specs).1 goalId
        proofExpr (before ++ List.range' state.metas.nextId specs.length ++ after) ∧
      delta = assignmentDelta hashing state next goalId proofExpr specs := by
  have valid := assignedState_valid prepares proofExpr specs
  rw [selects.openGoals_eq, selects.goalIndex_eq, spliceGoals_eq] at valid
  simp only [assignGoalWithBudgetAndSteps, Run.bind_eq_ok, Run.lift_eq_ok, Run.pure_eq_ok,
    Prod.mk.injEq, Result.okOr_eq_ok, selects.state_eq, selects.metaId_eq, selects.get_eq,
    selects.goalIndex_eq, Option.some.injEq, allocateMetas_ids, ensureTacticStepFuel,
    ensureExprNodeFuel, Result.ensure_eq_ok, decide_eq_true_eq, selects.openGoals_eq,
    spliceGoals_eq]
  constructor
  · rintro ⟨_, _, ⟨rfl, rfl⟩, _, _, ⟨_, rfl⟩, _, _, ⟨limits, rfl⟩, _, middle, loop, _, _, ⟨steps, rfl⟩,
      _, _, ⟨nodes, rfl⟩, result, last, checked, _, _, ⟨_, rfl⟩, ⟨rfl, rfl⟩, rfl⟩
    exact ⟨⟨limits, steps, nodes⟩, ⟨middle, result, loop, checked⟩, rfl, rfl⟩
  · rintro ⟨⟨limits, steps, nodes⟩, ⟨middle, result, loop, checked⟩, rfl, rfl⟩
    refine ⟨found, fuel, ⟨rfl, rfl⟩, (), fuel, ⟨?_, rfl⟩, (), fuel, ⟨limits, rfl⟩, (), middle, loop,
      (), middle, ⟨steps, rfl⟩, (), middle, ⟨nodes, rfl⟩, result, left, checked, (), left,
      ⟨valid, rfl⟩, ⟨rfl, rfl⟩, rfl⟩
    rw [selects.unassigned]
    rfl

end Assignment

/-! ### Solutions -/

section Solutions

variable (hashing : Hashing) (alloc : Allocator)

/-- The state after a solution. -/
def solvedState (state : MachineProofState) (solution : GoalId × ProofExpr) : MachineProofState :=
  refreshStateIdentity hashing
    { state with
      metas := state.metas.assign solution.1 solution.2
      openGoals := state.openGoals.erase solution.1 }

/-- Solutions one after the other, each with the same budget. -/
def solveAll (budget : TacticBudget) :
    List (GoalId × ProofExpr) → MachineProofState → TacticResult MachineProofState
  | [], state => .ok state
  | (goalId, proofExpr) :: rest, state => do
    let solved ← assignGoalWithBudget hashing alloc state goalId proofExpr [] budget
    solveAll budget rest solved.1

/-- What makes a solution acceptable in a state. -/
structure Solves (budget : TacticBudget) (state : MachineProofState)
    (solution : GoalId × ProofExpr) : Prop where
  valid : validateMachineProofState hashing state = .ok ()
  isOpen : solution.1 ∈ state.openGoals
  openLimit : state.openGoals.length - 1 ≤ state.env.options.maxOpenGoals
  metaLimit : state.metas.len ≤ state.env.options.maxMetas
  steps : 1 ≤ budget.maxTacticSteps
  nodes : proofExprNodeCount solution.2 ≤ budget.maxExprNodes
  checked : ∃ found result left, state.metas.get solution.1 = some found ∧
    checkProofExpr state.env.kernelEnv alloc state.root.universeParams state.metas [] solution.1
      solution.2 found.context found.target (.new budget) = (.ok result, left)

end Solutions

section Accepted

variable {hashing : Hashing} {alloc : Allocator} {budget : TacticBudget} {state : MachineProofState}
  {solution other : GoalId × ProofExpr}

theorem splice_eq_erase {before after : List GoalId} {goalId : GoalId}
    (nodup : (before ++ goalId :: after).Nodup) :
    before ++ after = (before ++ goalId :: after).erase goalId := by
  have absent : goalId ∉ before := by
    rw [List.nodup_append] at nodup
    exact fun mem => nodup.2.2 goalId mem goalId List.mem_cons_self rfl
  rw [List.erase_append_right _ absent, List.erase_cons_head]

theorem ensureWithinLimits_eq_ok {goalId : GoalId} {u : Unit} :
    ensureWithinLimits state goalId goalId 0 budget = .ok u ↔
      state.openGoals.length - 1 ≤ state.env.options.maxOpenGoals ∧
        state.metas.len ≤ state.env.options.maxMetas := by
  simp only [ensureWithinLimits, Result.bind_eq_ok, Result.ensure_eq_ok, decide_eq_true_eq,
    Nat.add_zero, Nat.zero_le, true_and, exists_const]

/-- A solution is accepted exactly where it solves its goal. -/
theorem assignGoalWithBudget_eq_ok {next : MachineProofState} :
    (∃ delta, assignGoalWithBudget hashing alloc state solution.1 solution.2 [] budget =
        .ok (next, delta)) ↔
      Solves hashing alloc budget state solution ∧ next = solvedState hashing state solution := by
  have accepted : ∀ {prepared before after found},
      prepareMachineTacticSnapshot hashing state solution.1 = .ok prepared →
      Selects state solution.1 prepared before after found →
      assignedState hashing state state.metas solution.1 solution.2 (before ++ [] ++ after) =
        solvedState hashing state solution := by
    intro prepared before after found prepares selects
    have nodup := selects.consistent.nodup
    rw [selects.openGoals_eq] at nodup
    -- without new goals, splicing only takes the goal out
    rw [List.append_nil, splice_eq_erase nodup, ← selects.openGoals_eq, assignedState, solvedState]
  simp only [assignGoalWithBudget, Result.bind_eq_ok]
  constructor
  · rintro ⟨delta, prepared, prepares, run⟩
    obtain ⟨valid, before, after, found, selects⟩ := prepare_eq_ok prepares
    obtain ⟨⟨limits, steps, nodes⟩, ⟨middle, result, loop, checked⟩, nextEq, _⟩ :=
      (assignGoal_eq_ok prepares selects).mp (Prod.ext run rfl)
    obtain ⟨openLimit, metaLimit⟩ := ensureWithinLimits_eq_ok.mp limits
    cases loop
    refine ⟨⟨valid, ?_, openLimit, metaLimit, steps, nodes, found, result, _, selects.get_eq,
      checked⟩, nextEq.trans (accepted prepares selects)⟩
    rw [selects.openGoals_eq]
    simp
  · rintro ⟨solves, rfl⟩
    obtain ⟨prepared, prepares⟩ := exists_prepare solves.valid solves.isOpen
    obtain ⟨_, before, after, found, selects⟩ := prepare_eq_ok prepares
    obtain ⟨entry, result, left, get, checked⟩ := solves.checked
    obtain rfl := Option.some.inj (selects.get_eq.symm.trans get)
    have run : assignGoalWithBudgetAndSteps hashing alloc prepared solution.1 solution.2 [] budget
        _ _ = (.ok (_, _), left) := (assignGoal_eq_ok prepares selects).mpr
      ⟨⟨ensureWithinLimits_eq_ok.mpr ⟨solves.openLimit, solves.metaLimit⟩, solves.steps,
        solves.nodes⟩, ⟨_, result, rfl, checked⟩, (accepted prepares selects).symm, rfl⟩
    exact ⟨_, prepared, prepares, congrArg Prod.fst run⟩

end Accepted

/-! ### The order of solutions -/

section Order

variable {hashing : Hashing} {alloc : Allocator} {budget : TacticBudget} {state : MachineProofState}
  {solution other : GoalId × ProofExpr}

/-- The identity is computed from the other fields. -/
theorem refreshStateIdentity_congr {first second : MachineProofState}
    (root : first.root = second.root) (openGoals : first.openGoals = second.openGoals)
    (metas : first.metas = second.metas) (env : first.env = second.env) :
    refreshStateIdentity hashing first = refreshStateIdentity hashing second := by
  cases first
  cases second
  simp only at root openGoals metas env
  subst root openGoals metas env
  rfl

theorem MetaVarStore.eq_of_metas {first second : MetaVarStore} (metas : first.metas = second.metas)
    (nextId : first.nextId = second.nextId) : first = second := by
  cases first
  cases second
  simp only at metas nextId
  subst metas nextId
  rfl

theorem MetaVarStore.assign_comm {store : MetaVarStore} {id id' : MetaVarId} {expr expr' : ProofExpr}
    (differ : id ≠ id') :
    (store.assign id expr).assign id' expr' = (store.assign id' expr').assign id expr := by
  apply MetaVarStore.eq_of_metas
  · simp only [metas_assign]
    exact OrderedMap.adjust_comm (fun _ _ => Nat.compare_eq_eq.mp) differ.symm
  · rfl

theorem solvedState_comm (differ : solution.1 ≠ other.1) :
    solvedState hashing (solvedState hashing state solution) other =
      solvedState hashing (solvedState hashing state other) solution := by
  apply refreshStateIdentity_congr
  · rfl
  · exact List.erase_comm solution.1 other.1
  · exact MetaVarStore.assign_comm differ
  · rfl

/-- A solution of another goal does not stand in the way: it has only assigned more. -/
theorem Solves.after (solves : Solves hashing alloc budget state solution)
    (first : Solves hashing alloc budget state other) (differ : solution.1 ≠ other.1) :
    Solves hashing alloc budget (solvedState hashing state other) solution := by
  obtain ⟨prepared, prepares⟩ := exists_prepare first.valid first.isOpen
  obtain ⟨valid, before, after, goal, selects⟩ := prepare_eq_ok prepares
  have step : Step hashing alloc state (solvedState hashing state other) := by
    obtain ⟨delta, assigned⟩ := assignGoalWithBudget_eq_ok.mpr ⟨first, rfl⟩
    simp only [assignGoalWithBudget, Result.bind_eq_ok] at assigned
    obtain ⟨prepared, prepares, run⟩ := assigned
    exact ⟨other.1, prepared, other.2, [], budget, 1, _, delta, _, prepares, Prod.ext run rfl⟩
  obtain ⟨_, _, _, _, _, _, _, effect⟩ := step.effect
  obtain ⟨found, result, left, get, checked⟩ := solves.checked
  have kept : Extends state.metas (state.metas.assign other.1 other.2) :=
    extends_assigned selects.get_eq selects.unassigned
  -- no new goals are allowed, so every answer was about an assigned metavariable
  have answers : ∀ ctx id checked,
      inferMetaRef state.metas [] solution.1 ctx id = .ok checked →
        inferMetaRef (state.metas.assign other.1 other.2) [] solution.1 ctx id = .ok checked :=
    fun ctx id checked => inferMetaRef_extends kept kept.len_le
  constructor
  case valid => exact effect.next_valid
  case isOpen => exact (List.mem_erase_of_ne differ).mpr solves.isOpen
  case openLimit =>
    have shorter : (state.openGoals.erase other.1).length ≤ state.openGoals.length :=
      List.length_erase_le
    exact Nat.le_trans (Nat.sub_le_sub_right shorter 1) solves.openLimit
  case metaLimit =>
    change (state.metas.assign other.1 other.2).len ≤ _
    rw [MetaVarStore.len_assign]
    exact solves.metaLimit
  case steps => exact solves.steps
  case nodes => exact solves.nodes
  case checked =>
    refine ⟨found, result, left, (MetaVarStore.get_assign_of_ne differ).trans get, ?_⟩
    exact (checkProofExpr_carries ⟨0, 0⟩ answers solution.2).1 _ _ _ _ _ checked

/-- Solutions of different goals that are each accepted in the state. -/
structure Independent (hashing : Hashing) (alloc : Allocator) (budget : TacticBudget)
    (state : MachineProofState) (solutions : List (GoalId × ProofExpr)) : Prop where
  distinct : (solutions.map Prod.fst).Nodup
  each : ∀ solution ∈ solutions, Solves hashing alloc budget state solution

theorem Independent.tail {rest : List (GoalId × ProofExpr)}
    (independent : Independent hashing alloc budget state (solution :: rest)) :
    Independent hashing alloc budget (solvedState hashing state solution) rest := by
  obtain ⟨distinct, each⟩ := independent
  rw [List.map_cons, List.nodup_cons] at distinct
  refine ⟨distinct.2, fun other mem => ?_⟩
  have differ : other.1 ≠ solution.1 := by
    intro same
    exact distinct.1 (same ▸ List.mem_map_of_mem mem)
  exact (each other (List.mem_cons_of_mem _ mem)).after (each solution List.mem_cons_self) differ

/-- Independent solutions are all accepted; by induction on them, as the rest stays independent. -/
theorem Independent.solveAll {solutions : List (GoalId × ProofExpr)}
    (independent : Independent hashing alloc budget state solutions) :
    solveAll hashing alloc budget solutions state =
      .ok (solutions.foldl (solvedState hashing) state) := by
  induction solutions generalizing state with
  | nil => rfl
  | cons solution rest ih =>
    have solves := independent.each solution List.mem_cons_self
    obtain ⟨delta, assigned⟩ := assignGoalWithBudget_eq_ok.mpr ⟨solves, rfl⟩
    rw [Tactic.solveAll, assigned, Result.ok_bind, List.foldl_cons]
    exact ih independent.tail

/-- Solutions of different goals that are each accepted in a state, with no new goals, are
    accepted one after the other in any order, and every order leaves the same state. -/
theorem solveAll_perm {solutions solutions' : List (GoalId × ProofExpr)}
    (perm : solutions.Perm solutions') (distinct : (solutions.map Prod.fst).Nodup)
    (each : ∀ solution ∈ solutions, ∃ next delta,
      assignGoalWithBudget hashing alloc state solution.1 solution.2 [] budget =
        .ok (next, delta)) :
    ∃ last, solveAll hashing alloc budget solutions state = .ok last ∧
      solveAll hashing alloc budget solutions' state = .ok last := by
  have solves : ∀ solution ∈ solutions, Solves hashing alloc budget state solution := by
    intro solution mem
    obtain ⟨next, accepted⟩ := each solution mem
    exact (assignGoalWithBudget_eq_ok.mp accepted).1
  have independent : Independent hashing alloc budget state solutions := ⟨distinct, solves⟩
  have independent' : Independent hashing alloc budget state solutions' :=
    ⟨(perm.map Prod.fst).nodup_iff.mp distinct, fun solution mem => solves solution (perm.mem_iff.mpr mem)⟩
  refine ⟨_, independent.solveAll, ?_⟩
  rw [independent'.solveAll]
  congr 1
  symm
  -- the folds agree because any two of the solutions can change places
  apply perm.foldl_eq'
  intro first firstMem second secondMem between
  by_cases same : first = second
  · rw [same]
  · apply solvedState_comm
    -- two solutions of one goal are the same solution
    intro sameGoal
    exact same (List.inj_on_of_nodup_map distinct firstMem secondMem sameGoal)

end Order

/-- A theorem `Prop` whose proof has been split into two goals of the same type. -/
def exampleSplit : TacticResult MachineProofState := do
  let state ← startMachineProof exampleHashing Kernel.noReuse
    ⟨⟨["M"]⟩, ⟨["M", "p"]⟩, 0, [], propSort⟩ exampleEnv
  let split ← assignGoal exampleHashing Kernel.noReuse state 0
    (.app (.app (.core (.lam "a" propSort (.lam "b" propSort (.bvar 1)))) (.metaVar 1)) (.metaVar 2))
    [⟨[], propSort⟩, ⟨[], propSort⟩]
  .ok split.1

def exampleSolutions : List (GoalId × ProofExpr) :=
  [(1, .core (.pi "x" propSort (.bvar 0))),
    (2, .core (.pi "x" propSort (.pi "h" (.bvar 0) (.bvar 1))))]

theorem exampleSolutions_accepted :
    (exampleSplit.map fun state => exampleSolutions.all fun solution =>
      (assignGoalWithBudget exampleHashing Kernel.noReuse state solution.1 solution.2 []
        .default).isOk).toOption = some true := by decide +kernel

theorem solveAll_perm_exampleSplit : ∃ state last,
    exampleSplit = .ok state ∧
      solveAll exampleHashing Kernel.noReuse .default exampleSolutions state = .ok last ∧
      solveAll exampleHashing Kernel.noReuse .default exampleSolutions.reverse state = .ok last := by
  have accepted := exampleSolutions_accepted
  cases run : exampleSplit with
  | error _ =>
    rw [run] at accepted
    cases accepted
  | ok state =>
    rw [run] at accepted
    have each := Option.some.inj accepted
    rw [List.all_eq_true] at each
    obtain ⟨last, forwards, backwards⟩ := @solveAll_perm exampleHashing Kernel.noReuse .default state
      exampleSolutions exampleSolutions.reverse (List.reverse_perm _).symm (by decide)
      (fun solution mem => by
        obtain ⟨result, assigned⟩ := Result.isOk_iff.mp (each solution mem)
        exact ⟨result.1, result.2, assigned⟩)
    exact ⟨state, last, rfl, forwards, backwards⟩

/-! ### Larger budgets -/

/-- What an assignment reads of a budget is no more than in the other one. -/
structure TacticBudget.Within (budget larger : TacticBudget) : Prop where
  tacticSteps : budget.maxTacticSteps ≤ larger.maxTacticSteps
  whnfSteps : budget.maxWhnfSteps ≤ larger.maxWhnfSteps
  conversionSteps : budget.maxConversionSteps ≤ larger.maxConversionSteps
  metaAllocations : budget.maxMetaAllocations ≤ larger.maxMetaAllocations
  exprNodes : budget.maxExprNodes ≤ larger.maxExprNodes

section Budget

variable {hashing : Hashing} {alloc : Allocator} {budget larger : TacticBudget}
  {state : MachineProofState} {goalId : GoalId}

theorem checkSubgoalSpec_carries (extra : TacticRunFuel) (prepared : PreparedSnapshot)
    (spec : MachineNewGoalSpec) :
    Run.Carries extra.add (checkSubgoalSpec alloc prepared spec)
      (checkSubgoalSpec alloc prepared spec) := by
  apply Run.carries_bind (Run.carries_lift fun _ h => h)
  intro _
  apply Run.carries_bind (localContextToCtx_carries extra _)
  intro ctx
  exact kernelExpectSort_carries extra ctx spec.target

theorem TacticBudget.Within.fuel (within : budget.Within larger) :
    ∃ extra : TacticRunFuel, TacticRunFuel.new larger = extra.add (.new budget) := by
  refine ⟨⟨larger.maxWhnfSteps - budget.maxWhnfSteps,
    larger.maxConversionSteps - budget.maxConversionSteps⟩, ?_⟩
  simp only [TacticRunFuel.new, TacticRunFuel.add, Nat.add_sub_cancel' within.whnfSteps,
    Nat.add_sub_cancel' within.conversionSteps]

theorem ensureWithinLimits_mono (within : budget.Within larger) {newGoals : Nat}
    (h : ensureWithinLimits state goalId goalId newGoals budget = .ok ()) :
    ensureWithinLimits state goalId goalId newGoals larger = .ok () := by
  simp only [ensureWithinLimits, Result.bind_eq_ok, Result.ensure_eq_ok, decide_eq_true_eq] at h ⊢
  obtain ⟨_, allocations, rest⟩ := h
  exact ⟨(), Nat.le_trans allocations within.metaAllocations, rest⟩

/-- What an assignment does within a budget it also does within a larger one: with the same goals,
    the same state and the same delta, down to the hashes. -/
theorem assignGoalWithBudget_mono (within : budget.Within larger) {proofExpr : ProofExpr}
    {specs : List MachineNewGoalSpec} {result : MachineProofState × MachineProofDelta}
    (h : assignGoalWithBudget hashing alloc state goalId proofExpr specs budget = .ok result) :
    assignGoalWithBudget hashing alloc state goalId proofExpr specs larger = .ok result := by
  obtain ⟨next, delta⟩ := result
  simp only [assignGoalWithBudget, Result.bind_eq_ok] at h ⊢
  obtain ⟨prepared, prepares, run⟩ := h
  obtain ⟨_, before, after, found, selects⟩ := prepare_eq_ok prepares
  obtain ⟨⟨limits, steps, nodes⟩, ⟨middle, checked, loop, passed⟩, accepted⟩ :=
    (assignGoal_eq_ok prepares selects).mp (Prod.ext run rfl)
  obtain ⟨extra, more⟩ := within.fuel
  -- both loops run as before, and leave the fuel that is there in addition
  have loop' := Run.carries_forEach
    (fun spec _ => checkSubgoalSpec_carries extra prepared spec) _ _ _ loop
  have passed' := (checkProofExpr_carries extra (fun _ _ _ answer => answer) proofExpr).1
    _ _ _ _ _ passed
  have again := (assignGoal_eq_ok prepares selects).mpr
    ⟨⟨ensureWithinLimits_mono within limits, Nat.le_trans steps within.tacticSteps,
      Nat.le_trans nodes within.exprNodes⟩, ⟨_, checked, loop', passed'⟩, accepted⟩
  refine ⟨prepared, prepares, ?_⟩
  rw [more, again]

end Budget

theorem assignGoalWithBudget_mono_exampleRun : ∃ state result,
    exampleStart propSort = .ok state ∧
      assignGoalWithBudget exampleHashing Kernel.noReuse state 0 (.lam "x" propSort (.metaVar 1))
        [⟨[⟨"x", propSort⟩], propSort⟩] ⟨9, 20000, 30000, 0, 64, 100000⟩ = .ok result := by
  obtain ⟨state, _, _, started, _⟩ := exampleRuns_prop.steps
  have accepted : (exampleStart propSort >>= exampleIntro propSort).isOk = true := by decide +kernel
  rw [started, Result.ok_bind] at accepted
  obtain ⟨result, run⟩ := Result.isOk_iff.mp accepted
  refine ⟨state, result, started, assignGoalWithBudget_mono ?_ run⟩
  constructor <;> decide

end NpaCore.Tactic
