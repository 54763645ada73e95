import NpaCore.Tactic.Checking

/-!
# Assignments

How a machine proof starts and how it goes on: `start_machine_proof`, and the assignment of a
goal by a proof expression, with goals for the metavariables that are new in it. Every tactic
of `npa-tactic/src/lib.rs` ends with this one step, `MachineProofDeltaBuilder::build`, on a
prepared snapshot of the state, with the expression it has computed and the fuel it has left.

## Main definitions

* `assignGoalWithBudgetAndSteps`: the step.
* `Step`, `Reachable`: the states that follow a state by one step, and those of a whole proof.
-/

namespace NpaCore.Tactic

open NpaCore.Kernel (Ctx Allocator)
open NpaCore.Wire (Bytes Hash Name)

/-! ### The start -/

structure MachineProofSpec where
  module : Name
  theoremName : Name
  sourceIndex : Nat
  universeParams : List String
  theoremType : Kernel.Expr

def invalidSpec (message : String) : Diagnostic := .new .invalidMachineProofSpec message

def dottedName (name : Name) : String := ".".intercalate name.components

def nameIsInModule (name module : Name) : Bool :=
  decide (module.components.length < name.components.length) &&
    module.components.isPrefixOf name.components

def validateUniverseParams (params : List String) : TacticResult Unit := do
  let _ ← Result.foldEach params [] fun seen param => do
    Result.ensure (param ≠ "") (invalidSpec "universe parameter names must be nonempty")
    Result.ensure (param ∉ seen) (invalidSpec s!"duplicate universe parameter {param}")
    .ok (param :: seen)
  .ok ()

def validateProofSpec (spec : MachineProofSpec) : TacticResult Unit := do
  Result.ensure spec.module.isCanonical (invalidSpec "proof module name is not canonical")
  Result.ensure spec.theoremName.isCanonical (invalidSpec "theorem name is not canonical")
  Result.ensure (nameIsInModule spec.theoremName spec.module)
    (invalidSpec (s!"theorem name {dottedName spec.theoremName} is not in proof module " ++
      dottedName spec.module))
  validateUniverseParams spec.universeParams

/-- `theorem_type_diag`. -/
def theoremTypeDiag (error : Kernel.Error) : Diagnostic :=
  let diagnostic : Diagnostic := match error with
    | .expectedSort _ => .new .typeMismatch "theorem type must have a sort type"
    | .expectedPi _ => .new .expectedFunctionType "theorem type contains an application"
    | .typeMismatch expected actual =>
      (Diagnostic.new .typeMismatch "kernel rejected theorem type").withExpectedActual expected actual
    | .invalidBVar _ => .new .proofExprScopeError "kernel rejected theorem type scope"
    | _ => .new .kernelRejected "kernel rejected theorem type"
  diagnostic.withKernelError error

def ensureTypeIsSort (env : Kernel.Env) (alloc : Allocator) (ctx : Ctx) (delta : List String)
    (term : Kernel.Expr) : Kernel.Result Unit := do
  let ty ← env.infer alloc ctx delta term
  match ← env.whnf alloc ctx delta ty with
  | .sort _ => .ok ()
  | actual => .error (.expectedSort actual)

/-- The state with one goal, the theorem, before its identity is computed. -/
def initialState (spec : MachineProofSpec) (env : MachineTacticEnv) (zeroHash : Hash) :
    MachineProofState where
  stateId := ""
  root := ⟨spec.module, spec.theoremName, spec.sourceIndex, spec.universeParams, spec.theoremType,
    .metaVar 0⟩
  openGoals := [0]
  metas := ⟨[(0, ⟨0, 0, [], spec.theoremType, none, 0⟩)], 1, by simp⟩
  env := env
  reservedLocalNames := []
  fingerprint := zeroHash

def zeroHash : Hash := Vector.replicate 32 0

/-- `start_machine_proof`, in an environment that has been built. -/
def startMachineProof (hashing : Hashing) (alloc : Allocator) (spec : MachineProofSpec)
    (env : MachineTacticEnv) : TacticResult MachineProofState := do
  validateProofSpec spec
  (ensureTypeIsSort env.kernelEnv alloc Ctx.new spec.universeParams spec.theoremType).mapError
    theoremTypeDiag
  let state := refreshStateIdentity hashing (initialState spec env zeroHash)
  validateMachineProofState hashing state
  .ok state

/-! ### Prepared snapshots -/

/-- `PreparedMachineTacticSnapshot`: a state that was validated, and one of its open goals. -/
structure PreparedSnapshot where
  state : MachineProofState
  goal : MachineGoal
  goalIndex : Nat

def prepareMachineTacticSnapshot (hashing : Hashing) (state : MachineProofState)
    (goalId : GoalId) : TacticResult PreparedSnapshot := do
  validateMachineProofState hashing state
  let goalIndex ← Result.okOr (state.openGoals.findIdx? (· = goalId))
    ((Diagnostic.new .unknownGoal s!"goal {goalId} is not open").withGoal goalId)
  let goal ← state.goal hashing.sha256 goalId
  .ok ⟨state, goal, goalIndex⟩

/-! ### New goals -/

structure MachineNewGoalSpec where
  context : LocalContext
  target : Kernel.Expr
  deriving DecidableEq, Repr

structure MachineNewMetaDelta where
  metaId : MetaVarId
  goalId : GoalId
  contextHash : Hash
  targetHash : Hash

structure MachineProofDelta where
  fromStateFingerprint : Hash
  toStateFingerprint : Hash
  assignedGoal : GoalId
  assignedMeta : MetaVarId
  proofExprHash : Hash
  addedGoals : List GoalId
  newMetas : List MachineNewMetaDelta
  deltaHash : Hash

/-- The metavariable that a goal is asked for with. -/
def MachineNewGoalSpec.toMeta (spec : MachineNewGoalSpec) (id : MetaVarId) : MachineMetaVar :=
  ⟨id, id, spec.context, spec.target, none, id⟩

/-- The loop that allocates the new metavariables. -/
def allocateMetas (sha256 : Bytes → Hash) (store : MetaVarStore) :
    List MachineNewGoalSpec → MetaVarStore × List MachineNewMetaDelta
  | [] => (store, [])
  | spec :: rest =>
    let metaId := store.nextId
    let store := { store with nextId := store.nextId + 1 }
    let below := allocateMetas sha256 (store.insert metaId (spec.toMeta metaId)) rest
    (below.1, ⟨metaId, metaId, machineLocalContextHash sha256 spec.context,
      coreExprHash sha256 spec.target⟩ :: below.2)

def encodeNewMetaTo (newMeta : MachineNewMetaDelta) : Bytes :=
  encodeU64To newMeta.metaId ++ encodeU64To newMeta.goalId ++ encodeHashTo newMeta.contextHash ++
    encodeHashTo newMeta.targetHash

def machineProofDeltaHash (sha256 : Bytes → Hash) (delta : MachineProofDelta) : Hash :=
  hashWithDomain sha256 "npa.machine-tactic.machine-proof-delta.v2"
    (encodeHashTo delta.fromStateFingerprint ++ encodeU64To delta.assignedGoal ++
      encodeU64To delta.assignedMeta ++ encodeHashTo delta.proofExprHash ++
      encodeListTo encodeU64To delta.addedGoals ++ encodeListTo encodeNewMetaTo delta.newMetas ++
      encodeHashTo delta.toStateFingerprint)

/-! ### The step -/

section Step

variable (hashing : Hashing) (alloc : Allocator)

/-- A diagnostic about the goal that is being assigned. -/
def goalDiag (kind : DiagnosticKind) (message : String) (goalId : GoalId) (metaId : MetaVarId) :
    Diagnostic :=
  ((Diagnostic.new kind message).withGoal goalId).withMeta metaId

def validateLocalContextExtensionBase (goal : MachineGoal) (ctx : LocalContext) :
    TacticResult Unit :=
  Result.ensure
    (machineLocalContextIsPrefix ctx goal.context || machineLocalContextIsPrefix goal.context ctx)
    (goalDiag .invalidMetaContext
      "local context extension must be comparable with the target goal context" goal.id goal.metaId)

/-- `typed_subgoal_spec_with_budget`. -/
def checkSubgoalSpec (prepared : PreparedSnapshot) (spec : MachineNewGoalSpec) : TacticRun Unit := do
  let state := prepared.state
  let goal := prepared.goal
  Run.lift (validateLocalContextExtensionBase goal spec.context)
  let ctx ← localContextToCtxWithBudget state.env.kernelEnv alloc state.root.universeParams
    goal.metaId spec.context
  kernelExpectSortWithBudget state.env.kernelEnv alloc state.root.universeParams goal.metaId ctx
    spec.target

/-- The limits that an assignment is held to before it is checked. -/
def ensureWithinLimits (state : MachineProofState) (goalId : GoalId) (metaId : MetaVarId)
    (newGoals : Nat) (budget : TacticBudget) : TacticResult Unit := do
  Result.ensure (newGoals ≤ budget.maxMetaAllocations)
    (goalDiag (.tacticFuelExhausted .metaAllocation)
      (s!"assign_goal requested {newGoals} new metas, remaining meta allocation fuel is " ++
        s!"{budget.maxMetaAllocations}") goalId metaId)
  -- the assigned goal is one of them, so the source's subtraction does not wrap
  let resultingOpenGoals := state.openGoals.length - 1 + newGoals
  Result.ensure (resultingOpenGoals ≤ state.env.options.maxOpenGoals)
    (goalDiag .goalLimitExceeded (s!"assign_goal would leave {resultingOpenGoals} open goals, " ++
      s!"limit is {state.env.options.maxOpenGoals}") goalId metaId)
  Result.ensure (state.metas.len + newGoals ≤ state.env.options.maxMetas)
    (goalDiag .metaLimitExceeded (s!"assign_goal would create {state.metas.len + newGoals} metas " ++
      s!"total, limit is {state.env.options.maxMetas}") goalId metaId)

def ensureTacticStepFuel (budget : TacticBudget) (needed : Nat) (goalId : GoalId)
    (metaId : MetaVarId) : TacticResult Unit :=
  Result.ensure (needed ≤ budget.maxTacticSteps) (goalDiag (.tacticFuelExhausted .tacticStep)
    (s!"tactic requires {needed} tactic step fuel, remaining tactic step fuel is " ++
      s!"{budget.maxTacticSteps}") goalId metaId)

def ensureExprNodeFuel (budget : TacticBudget) (needed : Nat) (goalId : GoalId)
    (metaId : MetaVarId) : TacticResult Unit :=
  Result.ensure (needed ≤ budget.maxExprNodes) (goalDiag (.tacticFuelExhausted .exprNode)
    (s!"tactic requires {needed} expression node fuel, remaining expression node fuel is " ++
      s!"{budget.maxExprNodes}") goalId metaId)

/-- The open goals with the new ones in the place of the assigned one. -/
def spliceGoals (openGoals : List GoalId) (goalIndex : Nat) (added : List GoalId) : List GoalId :=
  openGoals.take goalIndex ++ added ++ openGoals.drop (goalIndex + 1)

/-- The state after the assignment, with its identity. -/
def assignedState (state : MachineProofState) (store : MetaVarStore) (metaId : MetaVarId)
    (proofExpr : ProofExpr) (openGoals : List GoalId) : MachineProofState :=
  refreshStateIdentity hashing
    { state with metas := store.assign metaId proofExpr, openGoals := openGoals }

/-- `assign_goal_with_budget_and_steps`, which is `MachineProofDeltaBuilder::build`. -/
def assignGoalWithBudgetAndSteps (prepared : PreparedSnapshot) (goalId : GoalId)
    (proofExpr : ProofExpr) (newGoalSpecs : List MachineNewGoalSpec) (budget : TacticBudget)
    (requiredTacticSteps : Nat) : TacticRun (MachineProofState × MachineProofDelta) := do
  let state := prepared.state
  let metaId := prepared.goal.metaId
  let assigned ← Run.lift (Result.okOr (state.metas.get metaId)
    (goalDiag .unknownGoal s!"goal {goalId} does not have a backing metavariable" goalId metaId))
  Run.lift (Result.ensure assigned.assignment.isNone
    (goalDiag .goalAlreadyAssigned s!"goal {goalId} is already assigned" goalId metaId))
  Run.lift (ensureWithinLimits state goalId metaId newGoalSpecs.length budget)
  -- the new goals are checked before any of them has a number
  Run.forEach newGoalSpecs (checkSubgoalSpec alloc prepared)
  Run.lift (ensureTacticStepFuel budget requiredTacticSteps goalId metaId)
  let allocated := allocateMetas hashing.sha256 state.metas newGoalSpecs
  let added := allocated.2.map MachineNewMetaDelta.metaId
  let newNodes := newGoalSpecs.foldl (fun nodes spec => nodes + coreExprNodeCount spec.target) 0
  Run.lift (ensureExprNodeFuel budget (proofExprNodeCount proofExpr + newNodes) goalId metaId)
  let _ ← checkProofExpr state.env.kernelEnv alloc state.root.universeParams allocated.1 added metaId
    proofExpr assigned.context assigned.target
  -- the goal itself is assigned only now: the check above has seen it unassigned
  let candidate := assignedState hashing state allocated.1 metaId proofExpr
    (spliceGoals state.openGoals prepared.goalIndex added)
  Run.lift (validateMachineProofState hashing candidate)
  let delta : MachineProofDelta := ⟨state.fingerprint, candidate.fingerprint, goalId, metaId,
    proofExprHash hashing.sha256 proofExpr, added, allocated.2, zeroHash⟩
  pure (candidate, { delta with deltaHash := machineProofDeltaHash hashing.sha256 delta })

/-- `assign_goal_with_budget`. -/
def assignGoalWithBudget (state : MachineProofState) (goalId : GoalId) (proofExpr : ProofExpr)
    (newGoalSpecs : List MachineNewGoalSpec) (budget : TacticBudget) :
    TacticResult (MachineProofState × MachineProofDelta) := do
  let prepared ← prepareMachineTacticSnapshot hashing state goalId
  (assignGoalWithBudgetAndSteps hashing alloc prepared goalId proofExpr newGoalSpecs budget 1
    (.new budget)).1

/-- `assign_goal`. -/
def assignGoal (state : MachineProofState) (goalId : GoalId) (proofExpr : ProofExpr)
    (newGoalSpecs : List MachineNewGoalSpec) : TacticResult (MachineProofState × MachineProofDelta) :=
  assignGoalWithBudget hashing alloc state goalId proofExpr newGoalSpecs .default

/-! ### Runs -/

/-- One tactic of any kind: it prepares a goal, computes an expression, goals, a count of steps
    and a rest of fuel in some way, and assigns. -/
def Step (state next : MachineProofState) : Prop :=
  ∃ goalId prepared proofExpr newGoalSpecs budget steps fuel delta left,
    prepareMachineTacticSnapshot hashing state goalId = .ok prepared ∧
    assignGoalWithBudgetAndSteps hashing alloc prepared goalId proofExpr newGoalSpecs budget steps
      fuel = (.ok (next, delta), left)

/-- The states that steps lead to from a state. -/
inductive Later (state : MachineProofState) : MachineProofState → Prop
  | refl : Later state state
  | step {middle next : MachineProofState} : Later state middle → Step hashing alloc middle next →
    Later state next

/-- The states of a whole machine proof. -/
def Reachable (next : MachineProofState) : Prop :=
  ∃ spec env state, startMachineProof hashing alloc spec env = .ok state ∧
    Later hashing alloc state next

end Step

/-- What `assign_goal` returns follows the state by one step. -/
theorem step_of_assignGoal {hashing : Hashing} {alloc : Allocator}
    {state next : MachineProofState} {goalId : GoalId} {proofExpr : ProofExpr}
    {specs : List MachineNewGoalSpec} {delta : MachineProofDelta}
    (h : assignGoal hashing alloc state goalId proofExpr specs = .ok (next, delta)) :
    Step hashing alloc state next := by
  simp only [assignGoal, assignGoalWithBudget, Result.bind_eq_ok] at h
  obtain ⟨prepared, hprepared, run⟩ := h
  exact ⟨goalId, prepared, proofExpr, specs, _, 1, _, delta, _, hprepared, Prod.ext run rfl⟩

/-! ### A proof in two steps -/

def exampleHashing : Hashing := ⟨fun _ => zeroHash, fun _ => zeroHash, fun _ => zeroHash⟩

def propSort : Kernel.Expr := .sort .zero

/-- `∀ x : domain, Prop`. -/
def exampleSpec (domain : Kernel.Expr) : MachineProofSpec :=
  ⟨⟨["M"]⟩, ⟨["M", "id"]⟩, 0, [], .pi "x" domain propSort⟩

def exampleEnv : MachineTacticEnv := ⟨.builtinNone, .new, [], .default, zeroHash, zeroHash⟩

section Example

variable (domain : Kernel.Expr)

def exampleStart : TacticResult MachineProofState :=
  startMachineProof exampleHashing Kernel.noReuse (exampleSpec domain) exampleEnv

/-- A lambda over `Prop`, whose body is left as a goal. -/
def exampleIntro (state : MachineProofState) : TacticResult (MachineProofState × MachineProofDelta) :=
  assignGoal exampleHashing Kernel.noReuse state 0 (.lam "x" propSort (.metaVar 1))
    [⟨[⟨"x", domain⟩], propSort⟩]

/-- The local of the lambda in that goal. -/
def exampleExact (state : MachineProofState) : TacticResult (MachineProofState × MachineProofDelta) :=
  assignGoal exampleHashing Kernel.noReuse state 1 (.core (.bvar 0)) []

def exampleRun : TacticResult MachineProofState := do
  let state ← exampleStart domain
  let first ← exampleIntro domain state
  let second ← exampleExact first.1
  .ok second.1

/-- The metavariables at the end of the run. -/
def exampleMetas : MetaVarStore where
  metas := [(0, ⟨0, 0, [], .pi "x" domain propSort, some (.lam "x" propSort (.metaVar 1)), 0⟩),
    (1, ⟨1, 1, [⟨"x", domain⟩], propSort, some (.core (.bvar 0)), 1⟩)]
  nextId := 2
  sorted := show ([0, 1] : List MetaVarId).Pairwise _ by decide

/-- The run of `domain` goes through. -/
def ExampleRuns : Prop :=
  ((exampleRun domain).map fun state => (state.openGoals, state.metas)).toOption =
    some ([], exampleMetas domain)

instance : Decidable (ExampleRuns domain) := inferInstanceAs (Decidable (_ = _))

variable {domain}

theorem ExampleRuns.steps (run : ExampleRuns domain) : ∃ start middle state,
    exampleStart domain = .ok start ∧ exampleRun domain = .ok state ∧
      Step exampleHashing Kernel.noReuse start middle ∧
      Step exampleHashing Kernel.noReuse middle state ∧ state.openGoals = [] ∧
      state.metas = exampleMetas domain := by
  rw [ExampleRuns, exampleRun] at run
  cases start : exampleStart domain with
  | error _ =>
    rw [start] at run
    cases run
  | ok first =>
    cases intro : exampleIntro domain first with
    | error _ =>
      rw [start, Result.ok_bind, intro] at run
      cases run
    | ok second =>
      cases exact : exampleExact second.1 with
      | error _ =>
        rw [start, Result.ok_bind, intro, Result.ok_bind, exact] at run
        cases run
      | ok last =>
        rw [start, Result.ok_bind, intro, Result.ok_bind, exact] at run
        obtain ⟨openGoals, metas⟩ := Prod.mk.inj (Option.some.inj run)
        refine ⟨first, second.1, last.1, rfl, ?_, step_of_assignGoal intro,
          step_of_assignGoal exact, openGoals, metas⟩
        rw [exampleRun, start, Result.ok_bind, intro, Result.ok_bind, exact, Result.ok_bind]

theorem ExampleRuns.reachable (run : ExampleRuns domain) :
    ∃ state, exampleRun domain = .ok state ∧ Reachable exampleHashing Kernel.noReuse state ∧
      state.openGoals = [] ∧ state.metas = exampleMetas domain := by
  obtain ⟨start, middle, state, started, runs, first, second, openGoals, metas⟩ := run.steps
  exact ⟨state, runs, ⟨exampleSpec domain, exampleEnv, start, started,
    (Later.refl.step first).step second⟩, openGoals, metas⟩

end Example

theorem exampleRuns_prop : ExampleRuns propSort := by decide +kernel

end NpaCore.Tactic
