import NpaCore.Kernel.Admission

/-!
# The execution options

`KernelExecutionOptions` only decides whether an operation starts with a memo.
Reduction, conversion and inference do not read it, so they are the same in two
environments that differ in nothing else.
-/

namespace NpaCore.Kernel

/-- `self.execution_options = options`. -/
def Env.setOptions (env : Env) (options : KernelExecutionOptions) : Env :=
  { env with executionOptions := options }

/-- `needs_reuse_state`. -/
def KernelExecutionOptions.needsReuseState : KernelExecutionOptions → Bool
  | .memoOff => false
  | .ephemeralMemo | .repetitionProbe => true

section Operations

variable (env : Env) (options : KernelExecutionOptions)

/-! ### Iota -/

theorem directMutualRecursiveIndexArgs_setOptions (domain : Expr) (ctxLen : Nat)
    (names : List String) :
    directMutualRecursiveIndexArgs (env.setOptions options) domain ctxLen names =
      directMutualRecursiveIndexArgs env domain ctxLen names := by
  induction names with
  | nil => rfl
  | cons name rest ih =>
    rw [directMutualRecursiveIndexArgs, directMutualRecursiveIndexArgs, ih]
    rfl

theorem mutualConstructorOffset_setOptions (target : String) (offset : Nat) (names : List String) :
    mutualConstructorOffset (env.setOptions options) target offset names =
      mutualConstructorOffset env target offset names := by
  induction names generalizing offset with
  | nil => rfl
  | cons name rest ih =>
    simp only [mutualConstructorOffset, ih]
    rfl

theorem recursiveCall_setOptions (group : Option MutualGroupInfo) (data : InductiveDecl)
    (spine : RecursorSpine) (fieldDomain fieldArg : Expr) (ctxLen : Nat) :
    recursiveCall (env.setOptions options) group data spine fieldDomain fieldArg ctxLen =
      recursiveCall env group data spine fieldDomain fieldArg ctxLen := by
  simp only [recursiveCall, directMutualRecursiveIndexArgs_setOptions]
  rfl

theorem applyMinor_setOptions (group : Option MutualGroupInfo) (data : InductiveDecl)
    (spine : RecursorSpine) (minor : Expr) (fieldArgs fieldDomains : List Expr) :
    applyMinor (env.setOptions options) group data spine minor fieldArgs fieldDomains =
      applyMinor env group data spine minor fieldArgs fieldDomains := by
  have field : applyField (env.setOptions options) group data spine =
      applyField env group data spine := by
    funext reduced field
    simp only [applyField, recursiveCall_setOptions]
  rw [applyMinor, field, applyMinor]

theorem finishRecursorReduction_setOptions (application : Expr) (inductiveName : String)
    (rules : RecursorRules) (majorWhnf : Expr) :
    finishRecursorReduction (env.setOptions options) application inductiveName rules majorWhnf =
      finishRecursorReduction env application inductiveName rules majorWhnf := by
  have offset : ∀ group, blockConstructorOffset (env.setOptions options) group inductiveName =
      blockConstructorOffset env group inductiveName := by
    intro group
    cases group with
    | none => rfl
    | some group => exact mutualConstructorOffset_setOptions env options _ _ _
  simp only [finishRecursorReduction, offset, applyMinor_setOptions]
  rfl

/-! ### Reduction, conversion and inference -/

section Machine

variable (layout : Layout) (ctx : Ctx) (delta : List String) (kind : ResourceLimitKind)

theorem whnfTurn_setOptions (control : WhnfMachineControl) (frames : List WhnfMachineFrame) :
    whnfTurn (env.setOptions options) layout ctx delta kind control frames =
      whnfTurn env layout ctx delta kind control frames := by
  cases control with
  | reduce call current => rfl
  | complete call value => rfl
  | resume value =>
    cases frames with
    | nil => rfl
    | cons frame frames =>
      cases frame with
      | apply caller argument => rfl
      | recursorMajor caller application inductiveName rules =>
        simp only [whnfTurn, resumeTurn, finishRecursorReduction_setOptions]

theorem whnfMachine_setOptions (origin : MemoExprOrigin) (term : Expr) :
    whnfMachine (env.setOptions options) layout ctx delta kind origin term =
      whnfMachine env layout ctx delta kind origin term := by
  have loop : ∀ turns control frames,
      whnfLoop (env.setOptions options) layout ctx delta kind turns control frames =
        whnfLoop env layout ctx delta kind turns control frames := by
    intro turns
    induction turns with
    | zero => exact fun _ _ => rfl
    | succ turns ih =>
      intro control frames
      simp only [whnfLoop, whnfTurn_setOptions, ih]
  simp only [whnfMachine, loop]

end Machine

theorem isDefeqAt_setOptions (layout : Layout) (delta : List String) (depth : Nat) :
    isDefeqAt (env.setOptions options) layout delta depth = isDefeqAt env layout delta depth := by
  induction depth with
  | zero => rfl
  | succ depth ih =>
    funext ctx lhs lhsOrigin rhs rhsOrigin
    simp only [isDefeqAt, isDefeqBody, whnfMachine_setOptions, ih]

theorem isDefeqWithRemainingFuel_setOptions (layout : Layout) (delta : List String) :
    isDefeqWithRemainingFuel (env.setOptions options) layout delta =
      isDefeqWithRemainingFuel env layout delta := by
  funext ctx lhs lhsOrigin rhs rhsOrigin
  simp only [isDefeqWithRemainingFuel, isDefeqAt_setOptions]

section Infer

variable (layout : Layout) (policy : FuelPolicy) (universeContext : UniverseContext)

theorem inferTerm_setOptions (ctx : Ctx) (term : Expr) :
    inferTerm (env.setOptions options) layout policy universeContext ctx term =
      inferTerm env layout policy universeContext ctx term := by
  induction term generalizing ctx with
  | sort level => rfl
  | bvar index => rfl
  | const name levels => rfl
  | pi binder ty body ihTy ihBody | lam binder ty body ihTy ihBody =>
    simp only [inferTerm, expectSortFrom, whnfQuestion, whnfMachine_setOptions, ihTy, ihBody]
  | app fn arg ihFn ihArg =>
    simp only [inferTerm, checkFrom, whnfQuestion, defeqQuestion, whnfMachine_setOptions,
      isDefeqWithRemainingFuel_setOptions, ihFn, ihArg]

end Infer

end Operations

end NpaCore.Kernel
