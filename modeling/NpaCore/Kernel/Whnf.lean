import NpaCore.Kernel.Inductive
import NpaCore.Kernel.Session

/-!
# Weak head normal forms

`whnf_machine` of `env.rs`: a machine with explicit frames, one for the function
of an application and one for the major premise of a recursor. The head and the
arguments that a value of the machine carries beside its expression are read off
the expression by `collectApps`.
-/

namespace NpaCore.Kernel

open NpaCore.Expr

def whnfFuelLimit : Nat := 100000

def defeqFuelLimit : Nat := 5000000

/-! ### Reduction of a recursor -/

/-- The value of a definition that the reduction unfolds, at the given levels. -/
def unfoldDefinition (env : Env) (name : String) (levels : List Level) : Option Expr :=
  match env.decl name with
  | some (.defDecl _ universeParams _ _ value .reducible) =>
    some (value.substLevelsExpr universeParams levels)
  | _ => none

/-- The recursor at the head of an application and its major premise. -/
def resolveRecursor (env : Env) (application : Expr) :
    Option (String × RecursorRules × Expr) :=
  match application.collectApps with
  | (.const name _, args) =>
    match env.decl name with
    | some (.recursorDecl _ _ _ inductiveName rules) =>
      (args[rules.majorIndex]?).map fun major => (inductiveName, rules, major)
    | _ => none
  | _ => none

/-- What the recursive calls of one reduction share: the recursor and its levels, its
    arguments before the indices and the arguments of the constructor. -/
structure RecursorSpine where
  recursorName : String
  levels : List Level
  prefixArgs : List Expr
  constructorArgs : List Expr

/-- A recursive call at a field, with index arguments that live in the context of the
    constructor's telescope before that field. -/
def RecursorSpine.call (spine : RecursorSpine) (recursorName : String) (indexArgs : List Expr)
    (fieldArg : Expr) : Expr :=
  apps (.const recursorName spine.levels) (spine.prefixArgs ++ indexArgs ++ [fieldArg])

/-- The recursive call for a field, when the field is a direct occurrence of a family. -/
def recursiveCall (env : Env) (group : Option MutualGroupInfo) (data : InductiveDecl)
    (spine : RecursorSpine) (fieldDomain fieldArg : Expr) (ctxLen : Nat) :
    Result (Option Expr) :=
  let sourceArgs := spine.constructorArgs.take ctxLen
  match group with
  | some group =>
    match directMutualRecursiveIndexArgs env fieldDomain ctxLen group.inductives with
    | .error _ => .ok none
    | .ok (fieldInductive, indexArgs) => do
      let recursorName ← Result.okOr (group.recursors.lookup fieldInductive)
        (.invalidInductive (fieldInductive ++ " has no mutual recursor"))
      let recursiveData ← env.inductiveData fieldInductive
      let indexArgs ← Result.collect indexArgs fun arg =>
        instantiateConstructorArgs arg sourceArgs
      Result.ensure (indexArgs.length == recursiveData.indices.length)
        (.invalidInductive (recursorName ++ " recursive call index arity mismatch"))
      .ok (some (spine.call recursorName indexArgs fieldArg))
  | none =>
    match directRecursiveIndexArgs data fieldDomain ctxLen with
    | .error _ => .ok none
    | .ok indexArgs => do
      let indexArgs ← Result.collect indexArgs fun arg =>
        instantiateConstructorArgs arg sourceArgs
      .ok (some (spine.call spine.recursorName indexArgs fieldArg))

/-- The minor premise applied to a field and, for a recursive field, to its call. -/
def applyField (env : Env) (group : Option MutualGroupInfo) (data : InductiveDecl)
    (spine : RecursorSpine) (reduced : Expr) (field : (Expr × Expr) × Nat) : Result Expr := do
  let ((fieldArg, fieldDomain), fieldIndex) := field
  let call ← recursiveCall env group data spine fieldDomain fieldArg
    (data.params.length + fieldIndex)
  match call with
  | none => .ok (.app reduced fieldArg)
  | some call => .ok (.app (.app reduced fieldArg) call)

/-- The reduction once the minor premise and the constructor's fields are known. -/
def applyMinor (env : Env) (group : Option MutualGroupInfo) (data : InductiveDecl)
    (spine : RecursorSpine) (minor : Expr) (fieldArgs fieldDomains : List Expr) : Result Expr :=
  Result.foldEach (fieldArgs.zip fieldDomains).zipIdx minor (applyField env group data spine)

/-- The offset of the family's minor premises among those of its block. -/
def blockConstructorOffset (env : Env) (group : Option MutualGroupInfo) (inductiveName : String) :
    Result Nat :=
  match group with
  | some group => mutualConstructorOffset env inductiveName 0 group.inductives
  | none => .ok 0

def finishRecursorReduction (env : Env) (application : Expr) (inductiveName : String)
    (rules : RecursorRules) (majorWhnf : Expr) : Result (Option Expr) :=
  match application.collectApps, majorWhnf.collectApps with
  | (.const recursorName levels, args), (.const constructorName _, constructorArgs) =>
    if !env.constructorBelongsTo constructorName inductiveName then .ok none
    else do
      let data ← env.inductiveData inductiveName
      let group := env.mutualGroup inductiveName
      match data.constructors.findIdx? (fun c => c.name = constructorName) with
      | none => .ok none
      | some constructorIndex => do
        let offset ← blockConstructorOffset env group inductiveName
        match args[rules.minorStart + offset + constructorIndex]?,
            data.constructors[constructorIndex]? with
        | some minor, some constructor =>
          let fieldDomains := constructor.ty.peelPiDomains.1.drop data.params.length
          let fieldArgs := constructorArgs.drop data.params.length
          if constructorArgs.length < data.params.length then .ok none
          else if fieldArgs.length < fieldDomains.length then .ok none
          else do
            let spine : RecursorSpine :=
              { recursorName := recursorName
                levels := levels
                prefixArgs := args.take (rules.majorIndex - data.indices.length)
                constructorArgs := constructorArgs }
            let reduced ← applyMinor env group data spine minor fieldArgs fieldDomains
            .ok (some (apps reduced (args.drop (rules.majorIndex + 1))))
        | _, _ => .ok none
  | _, _ => .ok none

/-! ### The machine -/

structure WhnfActiveCall where
  startingFuel : Nat
  memoToken : Option WhnfMemoKey
  deriving DecidableEq, Repr

inductive WhnfMachineFrame where
  | apply (caller : WhnfActiveCall) (argument : Expr)
  | recursorMajor (caller : WhnfActiveCall) (application : Expr) (inductiveName : String)
      (rules : RecursorRules)
  deriving DecidableEq, Repr

inductive WhnfMachineControl where
  | reduce (call : WhnfActiveCall) (current : Expr)
  | complete (call : WhnfActiveCall) (value : Expr)
  | resume (value : Expr)
  deriving DecidableEq, Repr

/-- What one turn of the loop does. -/
inductive WhnfTurn where
  | done (value : Expr)
  | next (control : WhnfMachineControl) (frames : List WhnfMachineFrame)

section Machine

variable (env : Env) (layout : Layout) (ctx : Ctx) (delta : List String)
  (kind : ResourceLimitKind)

/-- `begin_call`, with the control it leads to: the body of the call, or its result when
    the memo has it. -/
def beginCall (origin : MemoExprOrigin) (term : Expr) : Op WhnfMachineControl := do
  let key : WhnfMemoKey := ⟨term, ctx, delta, kind⟩
  match ← whnfLookup layout origin key with
  | .hit entry => do
    replayMemoFuel kind entry.fuelCost
    pure (.resume entry.result)
  | .miss => do
    let session ← Run.get
    pure (.reduce ⟨session.fuel kind, some key⟩ term)
  | .ineligible => do
    let session ← Run.get
    pure (.reduce ⟨session.fuel kind, none⟩ term)

def finishCall (call : WhnfActiveCall) (result : Expr) : Op Unit :=
  match call.memoToken with
  | none => pure ()
  | some key => do
    let session ← Run.get
    insertWhnf layout key result (call.startingFuel - session.fuel kind)

def reduceTurn (call : WhnfActiveCall) (current : Expr) (frames : List WhnfMachineFrame) :
    Op WhnfTurn := do
  spendFuel kind
  match current with
  | .bvar index => do
    Run.lift (ctx.ensureBound index)
    pure (.next (.complete call (.bvar index)) frames)
  | .const name levels =>
    match unfoldDefinition env name levels with
    | some value => pure (.next (.reduce call value) frames)
    | none => pure (.next (.complete call (.const name levels)) frames)
  | .app fn argument => do
    let child ← beginCall layout ctx delta kind .retained fn
    pure (.next child (.apply call argument :: frames))
  | current => pure (.next (.complete call current) frames)

/-- The turn that hands a value to the frame of an application. -/
def applyTurn (caller : WhnfActiveCall) (argument value : Expr)
    (frames : List WhnfMachineFrame) : Op WhnfTurn :=
  match value with
  | .lam _ _ body => do
    let current ← Run.lift (Expr.instantiate body argument)
    pure (.next (.reduce caller current) frames)
  | value =>
    let application := .app value argument
    match resolveRecursor env application with
    | some (inductiveName, rules, major) => do
      let child ← beginCall layout ctx delta kind .retained major
      pure (.next child (.recursorMajor caller application inductiveName rules :: frames))
    | none => pure (.next (.complete caller application) frames)

def resumeTurn (value : Expr) : List WhnfMachineFrame → Op WhnfTurn
  | [] => pure (.done value)
  | .apply caller argument :: frames =>
    applyTurn env layout ctx delta kind caller argument value frames
  | .recursorMajor caller application inductiveName rules :: frames => do
    match ← Run.lift (finishRecursorReduction env application inductiveName rules value) with
    | some reduced => pure (.next (.reduce caller reduced) frames)
    | none => pure (.next (.complete caller application) frames)

def whnfTurn (control : WhnfMachineControl) (frames : List WhnfMachineFrame) : Op WhnfTurn :=
  match control with
  | .reduce call current => reduceTurn env layout ctx delta kind call current frames
  | .complete call value => do
    finishCall layout kind call value
    pure (.next (.resume value) frames)
  | .resume value => resumeTurn env layout ctx delta kind value frames

/-- The loop of `whnf_machine`, for a number of turns. -/
def whnfLoop : Nat → WhnfMachineControl → List WhnfMachineFrame → Op Expr
  | 0, _, _ => Run.fail (.resourceLimit kind)
  | turns + 1, control, frames => do
    match ← whnfTurn env layout ctx delta kind control frames with
    | .done value => pure value
    | .next control frames => whnfLoop turns control frames

/-- More turns than the loop can take with this fuel (`whnfLoop_turns`). -/
def turnLimit (fuel : Nat) : Nat := 5 * fuel + 2

def whnfMachine (origin : MemoExprOrigin) (term : Expr) : Op Expr := do
  let control ← beginCall layout ctx delta kind origin term
  let session ← Run.get
  whnfLoop env layout ctx delta kind (turnLimit (session.fuel kind)) control []

end Machine

end NpaCore.Kernel
