import NpaCore.Tactic.Fingerprint

/-!
# Machine proof states

The state of a machine proof of `npa-tactic/src/lib.rs`: the theorem, the metavariables with
their assignments, the open goals in order, and an identity that is recomputed whenever the
state changes. `validate_machine_proof_state` checks all of it.

Of the environment there is what proofs are checked in and what the identity covers: what its
own hash is computed from is left out, and that hash is a parameter, as SHA-256 is.
-/

namespace NpaCore.Tactic

open NpaCore.Wire (Bytes Hash Name)

/-! ### Diagnostics -/

inductive TacticFuelKind where
  | tacticStep
  | whnf
  | conversion
  | rewrite
  | metaAllocation
  | exprNode
  deriving DecidableEq, Repr

/-- The kinds of `MachineTacticDiagnosticKind` that proof states and assignments report. -/
inductive DiagnosticKind where
  | invalidTacticOption
  | invalidMachineTactic
  | tacticFuelExhausted (kind : TacticFuelKind)
  | invalidMachineProofState
  | invalidMachineProofSpec
  | unknownGoal
  | goalAlreadyAssigned
  | goalLimitExceeded
  | metaLimitExceeded
  | invalidMetaDependency
  | invalidMetaContext
  | proofExprScopeError
  | expectedFunctionType
  | typeMismatch
  | kernelRejected
  | unresolvedGoal
  deriving DecidableEq, Repr

/-- `MachineTacticDiagnostic`. An expected and an actual term stand for their hashes, and the
    error of the kernel for its text at the end of the message and for the diagnostic of
    universes that is computed from it. -/
structure Diagnostic where
  kind : DiagnosticKind
  message : String
  goalId : Option GoalId
  metaId : Option MetaVarId
  expected : Option Kernel.Expr
  actual : Option Kernel.Expr
  kernelError : Option Kernel.Error
  deriving DecidableEq, Repr

namespace Diagnostic

def new (kind : DiagnosticKind) (message : String) : Diagnostic :=
  ⟨kind, message, none, none, none, none, none⟩

def withGoal (diagnostic : Diagnostic) (goalId : GoalId) : Diagnostic :=
  { diagnostic with goalId := some goalId }

def withMeta (diagnostic : Diagnostic) (metaId : MetaVarId) : Diagnostic :=
  { diagnostic with metaId := some metaId }

def withExpectedActual (diagnostic : Diagnostic) (expected actual : Kernel.Expr) : Diagnostic :=
  { diagnostic with expected := some expected, actual := some actual }

def withKernelError (diagnostic : Diagnostic) (error : Kernel.Error) : Diagnostic :=
  { diagnostic with kernelError := some error }

end Diagnostic

abbrev TacticResult := Except Diagnostic

/-! ### Options and the environment -/

inductive RewriteDirection where
  | forward
  | backward
  deriving DecidableEq, Repr

structure SimpRuleRef where
  name : Name
  declInterfaceHash : Hash
  direction : RewriteDirection
  deriving DecidableEq, Repr

structure MachineTacticOptions where
  simpRules : List SimpRuleRef
  maxSimpRewriteSteps : Nat
  maxOpenGoals : Nat
  maxMetas : Nat
  deriving DecidableEq, Repr

/-- `MachineTacticOptions::default`. -/
def MachineTacticOptions.default : MachineTacticOptions := ⟨[], 1000, 256, 1024⟩

inductive MachineKernelProfile where
  | builtinNone
  | builtinNatEqRec
  deriving DecidableEq, Repr

def MachineKernelProfile.asStr : MachineKernelProfile → String
  | .builtinNone => "builtin-none-v0.1"
  | .builtinNatEqRec => "builtin-nat-eq-rec-v0.1"

/-- `MachineTacticEnv`. The global roots are the first components of the names that the imports
    export and the earlier declarations introduce. -/
structure MachineTacticEnv where
  kernelProfile : MachineKernelProfile
  kernelEnv : Kernel.Env
  globalRoots : List String
  options : MachineTacticOptions
  optionsFingerprint : Hash
  envFingerprint : Hash

def validateSimpRuleRefs (rules : List SimpRuleRef) : TacticResult Unit :=
  Result.forEach rules fun rule =>
    let dotted := ".".intercalate rule.name.components
    Result.ensure rule.name.isCanonical
      (.new .invalidMachineTactic s!"simp rule name {dotted} is not canonical")

def validateOptions (options : MachineTacticOptions) : TacticResult Unit := do
  validateSimpRuleRefs options.simpRules
  Result.ensure (options.maxSimpRewriteSteps ≠ 0)
    (.new .invalidTacticOption "max_simp_rewrite_steps must be nonzero")
  Result.ensure (options.maxOpenGoals ≠ 0)
    (.new .invalidTacticOption "max_open_goals must be nonzero")
  Result.ensure (options.maxMetas ≠ 0) (.new .invalidTacticOption "max_metas must be nonzero")

/-! ### Metavariables and goals -/

structure MachineMetaVar where
  id : MetaVarId
  goalId : GoalId
  context : LocalContext
  target : Kernel.Expr
  assignment : Option ProofExpr
  creationIndex : Nat
  deriving DecidableEq, Repr

/-- `BTreeMap<MetaVarId, MachineMetaVar>` and the number of the next metavariable. -/
structure MetaVarStore where
  metas : List (MetaVarId × MachineMetaVar)
  nextId : Nat
  sorted : (metas.map Prod.fst).Pairwise fun a b => compare a b = .lt
  deriving DecidableEq

namespace MetaVarStore

def keys (store : MetaVarStore) : List MetaVarId := store.metas.map Prod.fst

def len (store : MetaVarStore) : Nat := store.metas.length

def get (store : MetaVarStore) (id : MetaVarId) : Option MachineMetaVar :=
  OrderedMap.get? compare id store.metas

def insert (store : MetaVarStore) (id : MetaVarId) (newMeta : MachineMetaVar) : MetaVarStore where
  metas := OrderedMap.insertWith compare (fun _ value => value) id newMeta store.metas
  nextId := store.nextId
  sorted := by
    rw [OrderedMap.keys_insertWith]
    exact OrderedMap.insertKey_pairwise (fun _ _ => Nat.compare_eq_eq.mp) store.sorted

/-- `get_mut(id).assignment = Some(expr)`. -/
def assign (store : MetaVarStore) (id : MetaVarId) (expr : ProofExpr) : MetaVarStore where
  metas := OrderedMap.adjust compare id (fun old => { old with assignment := some expr }) store.metas
  nextId := store.nextId
  sorted := by
    rw [OrderedMap.keys_adjust]
    exact store.sorted

end MetaVarStore

structure MachineGoal where
  id : GoalId
  metaId : MetaVarId
  context : LocalContext
  contextHash : Hash
  target : Kernel.Expr
  targetHash : Hash

/-! ### The state -/

structure ProofRoot where
  module : Name
  theoremName : Name
  sourceIndex : Nat
  universeParams : List String
  theoremType : Kernel.Expr
  body : ProofExpr

structure MachineProofState where
  stateId : String
  root : ProofRoot
  openGoals : List GoalId
  metas : MetaVarStore
  env : MachineTacticEnv
  reservedLocalNames : List String
  fingerprint : Hash

/-- The hashes that are not computed here. -/
structure Hashing where
  sha256 : Bytes → Hash
  optionsHash : MachineTacticOptions → Hash
  envHash : MachineTacticEnv → Hash

section Identity

variable (hashing : Hashing)

def kernelCheckProfileHash (profile : MachineKernelProfile) : Hash :=
  hashWithDomain hashing.sha256 "npa.machine-tactic.kernel-check-profile.v2"
    (encodeStringTo "core-spec-v0.2" ++ encodeStringTo "npa-kernel.core.v0.2" ++
      encodeStringTo "beta-delta-iota.v0.1" ++ encodeStringTo "levels-imax-v0.1" ++
      encodeStringTo profile.asStr)

def encodeNameTo (name : Name) : Bytes := encodeListTo encodeStringTo name.components

def encodeMetaEntryTo (entry : MetaVarId × MachineMetaVar) : Bytes :=
  encodeU64To entry.1 ++ encodeU64To entry.2.goalId ++
    encodeHashTo (machineLocalContextHash hashing.sha256 entry.2.context) ++
    encodeHashTo (coreExprHash hashing.sha256 entry.2.target) ++
    encodeOptionProofExprTo entry.2.assignment ++ encodeU64To entry.2.creationIndex

def machineProofStateBytes (state : MachineProofState) : Bytes :=
  encodeNameTo state.root.module ++ encodeNameTo state.root.theoremName ++
    encodeU64To state.root.sourceIndex ++ encodeListTo encodeStringTo state.root.universeParams ++
    encodeHashTo (coreExprHash hashing.sha256 state.root.theoremType) ++
    encodeHashTo (proofExprHash hashing.sha256 state.root.body) ++
    encodeListTo encodeU64To state.openGoals ++ encodeU64To state.metas.nextId ++
    encodeListTo (encodeMetaEntryTo hashing) state.metas.metas ++
    encodeHashTo state.env.envFingerprint ++
    encodeListTo encodeStringTo state.reservedLocalNames ++
    encodeHashTo (kernelCheckProfileHash hashing state.env.kernelProfile)

def machineProofStateHash (state : MachineProofState) : Hash :=
  hashWithDomain hashing.sha256 "npa.machine-tactic.machine-proof-state.v2"
    (machineProofStateBytes hashing state)

/-- The names of a metavariable's context and of the binders of its assignment. -/
def collectMetaNames (names : List String) (entry : MetaVarId × MachineMetaVar) : List String :=
  let names := entry.2.context.foldl (fun names localDecl => insertName localDecl.name names) names
  match entry.2.assignment with
  | some assignment => collectProofExprBinders assignment names
  | none => names

def recomputeReservedLocalNames (state : MachineProofState) : List String :=
  state.metas.metas.foldl collectMetaNames (collectProofExprBinders state.root.body [])

def refreshStateIdentity (state : MachineProofState) : MachineProofState :=
  let state := { state with reservedLocalNames := recomputeReservedLocalNames state }
  -- the names are hashed, so they are recomputed first
  let state := { state with fingerprint := machineProofStateHash hashing state }
  { state with stateId := hexHash state.fingerprint }

end Identity

/-! ### Validation -/

section Validation

variable (hashing : Hashing)

def staleState (what : String) : Diagnostic := .new .invalidMachineProofState what

/-- The identity of a state is the one that would be computed now. -/
def validateIdentity (state : MachineProofState) : TacticResult Unit := do
  Result.ensure (state.env.optionsFingerprint = hashing.optionsHash state.env.options)
    (staleState "machine tactic options fingerprint is stale")
  Result.ensure (state.env.envFingerprint = hashing.envHash state.env)
    (staleState "machine tactic env fingerprint is stale")
  Result.ensure (state.reservedLocalNames = recomputeReservedLocalNames state)
    (staleState "reserved local names are stale")
  let expectedFingerprint := machineProofStateHash hashing state
  Result.ensure (state.fingerprint = expectedFingerprint)
    (staleState "machine proof state fingerprint is stale")
  Result.ensure (state.stateId = hexHash expectedFingerprint)
    (staleState "machine proof state_id is stale")

def validateMetaIds (store : MetaVarStore) : TacticResult Unit :=
  Result.forEach store.metas fun entry => do
    -- a metavariable and its goal have the same number, under which the map has it
    Result.ensure (entry.1 = entry.2.id ∧ entry.2.goalId = entry.1)
      ((staleState s!"metavariable {entry.1} has inconsistent id fields").withMeta entry.1)
    Result.ensure (entry.2.id < store.nextId)
      ((staleState s!"metavariable {entry.2.id} is outside the allocated next_id {store.nextId}").withMeta
        entry.1)

/-- One turn of the loop over the open goals, with the goals seen so far. -/
def validateOpenGoal (store : MetaVarStore) (seen : List GoalId) (goalId : GoalId) :
    TacticResult (List GoalId) := do
  Result.ensure (goalId ∉ seen)
    ((staleState s!"goal {goalId} appears more than once").withGoal goalId)
  let found ← Result.okOr (store.get goalId)
    (((staleState s!"open goal {goalId} has no metavariable").withGoal goalId).withMeta goalId)
  Result.ensure found.assignment.isNone
    (((staleState s!"open goal {goalId} is already assigned").withGoal goalId).withMeta goalId)
  .ok (goalId :: seen)

def validateMetaOpenness (seen : List GoalId) (entry : MetaVarId × MachineMetaVar) :
    TacticResult Unit := do
  let isOpen := decide (entry.2.goalId ∈ seen)
  Result.ensure (!(entry.2.assignment.isNone && !isOpen))
    (((staleState s!"unassigned meta {entry.2.id} is missing from open goals").withGoal
      entry.2.goalId).withMeta entry.2.id)
  Result.ensure (!(entry.2.assignment.isSome && isOpen))
    (((staleState s!"assigned meta {entry.2.id} is still listed as open").withGoal
      entry.2.goalId).withMeta entry.2.id)

def validateMachineProofState (state : MachineProofState) : TacticResult Unit := do
  validateOptions state.env.options
  validateIdentity hashing state
  validateMetaIds state.metas
  -- every listed goal is unassigned, then every unassigned one is listed
  let seen ← Result.foldEach state.openGoals [] (validateOpenGoal state.metas)
  Result.forEach state.metas.metas (validateMetaOpenness seen)

end Validation

/-! ### Goals -/

/-- `MachineProofState::goal`. -/
def MachineProofState.goal (sha256 : Bytes → Hash) (state : MachineProofState) (goalId : GoalId) :
    TacticResult MachineGoal := do
  Result.ensure (goalId ∈ state.openGoals)
    ((Diagnostic.new .unknownGoal s!"goal {goalId} is not open").withGoal goalId)
  let found ← Result.okOr (state.metas.get goalId)
    ((Diagnostic.new .unknownGoal s!"goal {goalId} does not have a backing metavariable").withGoal
      goalId)
  Result.ensure (found.goalId = goalId)
    (((staleState s!"goal {goalId} is not the canonical goal for meta {goalId}").withGoal
      goalId).withMeta goalId)
  Result.ensure found.assignment.isNone
    (((Diagnostic.new .goalAlreadyAssigned s!"goal {goalId} is already assigned").withGoal
      goalId).withMeta goalId)
  .ok ⟨goalId, goalId, found.context, machineLocalContextHash sha256 found.context, found.target,
    coreExprHash sha256 found.target⟩

end NpaCore.Tactic
