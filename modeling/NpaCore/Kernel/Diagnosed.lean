import NpaCore.Kernel.Methods
import NpaCore.Kernel.Options

/-!
# Diagnosed admission

The second set of checks of `env.rs`, with the suffix `_diagnosed`, which collects
work counters and a context for the error. What it collects never feeds back into
the checks, so the meters, the recorders and the contexts are left out and a
`DiagnosedKernelError` is the kernel error inside it. These checks never use a memo,
and they take their fuel limits as an argument.
-/

namespace NpaCore.Kernel

open NpaCore.Expr NpaCore.Level

structure KernelDiagnosticFuelLimits where
  whnf : Nat
  conversion : Nat
  deriving DecidableEq, Repr

def diagnosedFuelLimits : KernelDiagnosticFuelLimits := ⟨whnfFuelLimit, defeqFuelLimit⟩

/-- The layout of code that has no memo. -/
def memoFree : Layout := noReuse .new []

section Questions

variable (env : Env)

/-! ### Conversion -/

/-- `is_defeq_with_remaining_fuel_diagnosed`, with a bound on the depth as in `isDefeqAt`.
    The path labels that the cases of the comparison push and pop are left out. -/
def isDefeqDiagnosedAt (delta : List String) : Nat → Ctx → Expr → Expr → Op Bool
  | 0, _, _, _ => Run.fail (.resourceLimit .conversion)
  | depth + 1, ctx, lhs, rhs => do
    spendFuel .conversion
    if quickSyntacticEq lhs rhs then pure true
    else do
      let lhs ← whnfMachine env memoFree ctx delta .conversion .borrowed lhs
      let rhs ← whnfMachine env memoFree ctx delta .conversion .borrowed rhs
      compareWhnf (isDefeqDiagnosedAt delta depth) ctx lhs rhs

def isDefeqWithRemainingFuelDiagnosed (ctx : Ctx) (delta : List String) (lhs rhs : Expr) :
    Op Bool := do
  let session ← Run.get
  isDefeqDiagnosedAt env delta (session.conversionFuel + 1) ctx lhs rhs

def runDiagnosedConversion (ctx : Ctx) (delta : List String) (lhs rhs : Expr)
    (fuelBudget : Nat) : Result Bool :=
  (isDefeqWithRemainingFuelDiagnosed env ctx delta lhs rhs ⟨none, 0, fuelBudget⟩).1

def ensureDefeqDiagnosedMetered (ctx : Ctx) (delta : List String) (lhs rhs : Expr)
    (mismatch : Error) (fuelBudget : Nat) : Result Unit :=
  match runDiagnosedConversion env ctx delta lhs rhs fuelBudget with
  | .ok true => .ok ()
  | .ok false => .error mismatch
  | .error error => .error error

def whnfDiagnosed (ctx : Ctx) (delta : List String) (term : Expr) (fuelBudget : Nat) :
    Result Expr :=
  (whnfMachine env memoFree ctx delta .whnf .borrowed term ⟨none, fuelBudget, 0⟩).1

/-! ### Inference -/

section Infer

variable (limits : KernelDiagnosticFuelLimits) (policy : FuelPolicy)
  (universeContext : UniverseContext)

/-- `whnf_diagnosed`, which has its own budget, or `whnf_diagnosed_with_remaining_fuel`. -/
def whnfDiagnosedQuestion (ctx : Ctx) (term : Expr) : Op Expr := do
  refuel policy .whnf limits.whnf
  whnfMachine env memoFree ctx universeContext.params .whnf .borrowed term

/-- `run_diagnosed_conversion`, or `run_diagnosed_conversion_with_remaining_fuel`. -/
def defeqDiagnosedQuestion (ctx : Ctx) (lhs rhs : Expr) : Op Bool := do
  refuel policy .conversion limits.conversion
  isDefeqWithRemainingFuelDiagnosed env ctx universeContext.params lhs rhs

def expectSortDiagnosedFrom (ctx : Ctx) (inferred : Op Expr) : Op Level := do
  let ty ← inferred
  match ← whnfDiagnosedQuestion env limits policy universeContext ctx ty with
  | .sort level => pure level
  | actual => Run.fail (.expectedSort actual)

def checkDiagnosedFrom (ctx : Ctx) (inferred : Op Expr) (expected : Expr) : Op Unit := do
  let actual ← inferred
  if ← defeqDiagnosedQuestion env limits policy universeContext ctx actual expected
  then pure ()
  else Run.fail (.typeMismatch expected actual)

/-- `infer_in_universe_context_diagnosed` and `infer_with_remaining_fuel_diagnosed`. -/
def inferDiagnosed (ctx : Ctx) : Expr → Op Expr
  | .sort level => do
    Run.lift (ensureLevelWf universeContext.params level)
    pure (.sort (.succ level))
  | .bvar index => Run.lift (ctx.lookupType index)
  | .const name levels => Run.lift (inferConstType env universeContext name levels)
  | .pi _ ty body => do
    let domainSort ←
      expectSortDiagnosedFrom env limits policy universeContext ctx (inferDiagnosed ctx ty)
    let bodyCtx := ctx.pushAssumption ty
    let bodySort ← expectSortDiagnosedFrom env limits policy universeContext bodyCtx
      (inferDiagnosed bodyCtx body)
    pure (.sort (mkIMax domainSort bodySort))
  | .lam binder ty body => do
    let _ ← expectSortDiagnosedFrom env limits policy universeContext ctx (inferDiagnosed ctx ty)
    let bodyTy ← inferDiagnosed (ctx.pushAssumption ty) body
    pure (.pi binder ty bodyTy)
  | .app fn arg => do
    let fnTy ← inferDiagnosed ctx fn
    match ← whnfDiagnosedQuestion env limits policy universeContext ctx fnTy with
    | .pi _ ty body => do
      checkDiagnosedFrom env limits policy universeContext ctx (inferDiagnosed ctx arg) ty
      Run.lift (Expr.instantiate body arg)
    | actual => Run.fail (.expectedPi actual)

end Infer

/-- Code without a memo; the questions replace the fuel by their own budgets. -/
def KernelDiagnosticFuelLimits.session (limits : KernelDiagnosticFuelLimits) : Session :=
  ⟨none, limits.whnf, limits.conversion⟩

def expectSortInUniverseContextDiagnosed (ctx : Ctx) (universeContext : UniverseContext)
    (term : Expr) (limits : KernelDiagnosticFuelLimits) : Result Level :=
  (expectSortDiagnosedFrom env limits .perQuestion universeContext ctx
    (inferDiagnosed env limits .perQuestion universeContext ctx term) limits.session).1

def checkInUniverseContextDiagnosed (ctx : Ctx) (universeContext : UniverseContext)
    (term expected : Expr) (limits : KernelDiagnosticFuelLimits) : Result Unit :=
  (checkDiagnosedFrom env limits .perQuestion universeContext ctx
    (inferDiagnosed env limits .perQuestion universeContext ctx term) expected limits.session).1

def expectSortWithRemainingFuelDiagnosed (ctx : Ctx) (universeContext : UniverseContext)
    (term : Expr) (limits : KernelDiagnosticFuelLimits) : Op Level :=
  expectSortDiagnosedFrom env limits .pooled universeContext ctx
    (inferDiagnosed env limits .pooled universeContext ctx term)

end Questions

section Checks

variable (env : Env) (limits : KernelDiagnosticFuelLimits)

/-! ### Constructors -/

/-- The loop of `check_constructor_universe_bounds_diagnosed`. -/
def universeBoundsDiagnosedFrom (data : InductiveDecl) (constructor : ConstructorDecl)
    (universeContext : UniverseContext) (inductiveSort : Level) :
    List Expr → Nat → Ctx → Op Unit
  | [], _, _ => pure ()
  | domain :: rest, domainIndex, ctx => do
    let fieldLevel ← expectSortWithRemainingFuelDiagnosed env ctx universeContext domain limits
    if data.params.length ≤ domainIndex then do
      let bounded ← Run.lift (universeContext.entailsLevelLe fieldLevel inductiveSort)
      Run.lift (Result.ensure bounded (.constructorUniverseBoundViolation data.name
        constructor.name (domainIndex - data.params.length) (normalizeLevel fieldLevel)
        inductiveSort))
    universeBoundsDiagnosedFrom data constructor universeContext inductiveSort rest
      (domainIndex + 1) (ctx.pushAssumption domain)

def checkConstructorUniverseBoundsDiagnosed (data : InductiveDecl)
    (constructor : ConstructorDecl) (domains : List Expr) (universeContext : UniverseContext) :
    Result Unit :=
  let inductiveSort := normalizeLevel data.sort
  if inductiveSort = .zero then .ok ()
  else
    (universeBoundsDiagnosedFrom env limits data constructor universeContext inductiveSort
      domains 0 .new limits.session).1

def checkConstructorDeclDiagnosed (data : InductiveDecl) (constructor : ConstructorDecl)
    (universeContext : UniverseContext) : Result Unit := do
  let _ ← expectSortInUniverseContextDiagnosed env .new universeContext constructor.ty limits
  let (domains, result) := constructor.ty.peelPiDomains
  Result.forEach domains.zipIdx fun (domain, domainIndex) =>
    checkConstructorDomainPositive env data constructor.name domainIndex domain
  let result ← whnfDiagnosed env .new universeContext.params result limits.whnf
  checkConstructorResult data constructor domains.length result
  checkConstructorUniverseBoundsDiagnosed env limits data constructor domains universeContext

def checkMutualConstructorDeclDiagnosed (block : MutualInductiveBlock) (data : InductiveDecl)
    (constructor : ConstructorDecl) (universeContext : UniverseContext) : Result Unit := do
  let _ ← expectSortInUniverseContextDiagnosed env .new universeContext constructor.ty limits
  let (domains, result) := constructor.ty.peelPiDomains
  Result.forEach domains.zipIdx fun (domain, domainIndex) =>
    checkMutualConstructorDomainPositive env block data constructor.name domainIndex domain
  let result ← whnfDiagnosed env .new universeContext.params result limits.whnf
  checkConstructorResult data constructor domains.length result
  checkConstructorUniverseBoundsDiagnosed env limits data constructor domains universeContext

/-! ### Recursors -/

/-- `ensure_defeq_diagnosed_metered` at a position of the telescope, which the checks before
    have shown to exist. -/
def ensureDomainDefeqDiagnosed (ctx : Ctx) (delta : List String) (domains : List Expr)
    (index : Nat) (expected : Expr) (mismatch : Error) : Result Unit :=
  match domains[index]? with
  | some domain =>
    ensureDefeqDiagnosedMetered env ctx delta domain expected mismatch limits.conversion
  | none => .error mismatch

/-- The loop of `check_recursor_params_diagnosed` over the parameters. -/
def recursorParamsDiagnosedFrom (recursor : RecursorDecl) (domains : List Expr)
    (universeContext : UniverseContext) : List (Binder × Nat) → Ctx → Result Unit
  | [], _ => .ok ()
  | (binder, paramIndex) :: rest, ctx => do
    let _ ← expectSortInUniverseContextDiagnosed env ctx universeContext binder.ty limits
    ensureDomainDefeqDiagnosed env limits ctx universeContext.params domains paramIndex binder.ty
      (invalid [recursor.name, " recursor parameter ", binder.name, " does not match inductive"])
    recursorParamsDiagnosedFrom recursor domains universeContext rest
      (ctx.pushAssumption binder.ty)

def checkRecursorParamsDiagnosed (data : InductiveDecl) (recursor : RecursorDecl)
    (domains : List Expr) (universeContext : UniverseContext) : Result Unit := do
  Result.ensure (data.params.length ≤ domains.length)
    (invalid [recursor.name, " recursor is missing parameter binders"])
  recursorParamsDiagnosedFrom env limits recursor domains universeContext data.params.zipIdx .new

/-- The loop of `check_recursor_indices_at_diagnosed`. -/
def recursorIndicesDiagnosedFrom (data : InductiveDecl) (recursor : RecursorDecl)
    (indexStart : Nat) (domains : List Expr) (universeContext : UniverseContext) :
    List (Binder × Nat) → List Nat → Result Unit
  | [], _ => .ok ()
  | (expected, index) :: rest, sourceToTarget => do
    let domainIndex := indexStart + index
    let actual ← Result.okOr domains[domainIndex]?
      (invalid [recursor.name, " recursor is missing index binder ", expected.name])
    let expectedTy ← remapBvars expected.ty (data.params.length + index) domainIndex sourceToTarget
    ensureDefeqDiagnosedMetered env (recursorPrefixCtx (domains.take domainIndex))
      universeContext.params actual expectedTy
      (invalid [recursor.name, " recursor index ", expected.name, " does not match inductive"])
      limits.conversion
    recursorIndicesDiagnosedFrom data recursor indexStart domains universeContext rest
      (sourceToTarget ++ [domainIndex])

def checkRecursorIndicesAtDiagnosed (data : InductiveDecl) (recursor : RecursorDecl)
    (indexStart : Nat) (domains : List Expr) (universeContext : UniverseContext) : Result Unit :=
  recursorIndicesDiagnosedFrom env limits data recursor indexStart domains universeContext
    data.indices.zipIdx (List.range data.params.length)

def checkRecursorResultDiagnosed (data : InductiveDecl) (recursor : RecursorDecl)
    (rules : RecursorRules) (domains : List Expr) (result : Expr)
    (universeContext : UniverseContext) : Result Unit := do
  let indexStart := rules.minorStart + data.constructors.length
  let indexArgs ← Result.collect (List.range data.indices.length) fun index =>
    bvarForAbs domains.length (indexStart + index)
  let major ← bvarForAbs domains.length rules.majorIndex
  let expected ← motiveApp domains.length data.params.length indexArgs major
  ensureDefeqDiagnosedMetered env (recursorPrefixCtx domains) universeContext.params result
    expected (invalid [recursor.name, " result must apply motive to the major premise"])
    limits.conversion

def checkMutualRecursorResultDiagnosed (data : InductiveDecl) (familyIndex indexStart : Nat)
    (recursor : RecursorDecl) (rules : RecursorRules) (domains : List Expr) (result : Expr)
    (universeContext : UniverseContext) : Result Unit := do
  let indexArgs ← Result.collect (List.range data.indices.length) fun index =>
    bvarForAbs domains.length (indexStart + index)
  let major ← bvarForAbs domains.length rules.majorIndex
  let expected ← motiveApp domains.length (data.params.length + familyIndex) indexArgs major
  ensureDefeqDiagnosedMetered env (recursorPrefixCtx domains) universeContext.params result
    expected
    (invalid [recursor.name, " result must apply the matching mutual motive to the major premise"])
    limits.conversion

def checkRecursorDeclDiagnosed (data : InductiveDecl) (recursor : RecursorDecl)
    (rules : RecursorRules) (universeContext : UniverseContext) : Result Unit := do
  Result.ensure (rules.minorStart == data.params.length + 1)
    (invalid [data.name, " recursor minor_start must be params + motive"])
  Result.ensure
    (rules.majorIndex == rules.minorStart + data.constructors.length + data.indices.length)
    (invalid
      [data.name, " recursor major_index must follow constructor minor premises and indices"])
  let (domains, result) := recursor.ty.peelPiDomains
  Result.ensure (rules.majorIndex < domains.length)
    (invalid [recursor.name, " recursor has no major premise"])
  Result.ensure (domains.length == rules.majorIndex + 1)
    (invalid [recursor.name, " recursor major premise must be the final binder in kernel core"])
  checkRecursorParamsDiagnosed env limits data recursor domains universeContext
  let motiveDomain ← Result.okOr domains[data.params.length]?
    (invalid [recursor.name, " recursor is missing motive"])
  checkMotiveDomain data recursor motiveDomain
  let indexStart := rules.minorStart + data.constructors.length
  checkRecursorIndicesAtDiagnosed env limits data recursor indexStart domains universeContext
  let majorDomain ← Result.okOr domains[rules.majorIndex]?
    (invalid [recursor.name, " recursor has no major premise"])
  checkRecursorTarget data recursor majorDomain "major premise" rules.majorIndex indexStart
  checkRecursorResultDiagnosed env limits data recursor rules domains result universeContext
  Result.forEach data.constructors.zipIdx fun (constructor, constructorIndex) => do
    let minorIndex := rules.minorStart + constructorIndex
    let expectedMinor ← expectedMinorType data constructor constructorIndex
    ensureDomainDefeqDiagnosed env limits (recursorPrefixCtx (domains.take minorIndex))
      universeContext.params domains minorIndex expectedMinor
      (invalid [recursor.name, " minor premise for ", constructor.name,
        " does not match constructor"])

def checkMutualRecursorDeclDiagnosed (block : MutualInductiveBlock) (data : InductiveDecl)
    (recursor : RecursorDecl) (rules : RecursorRules) (universeContext : UniverseContext) :
    Result Unit := do
  let paramCount := data.params.length
  let minorStart := paramCount + block.inductives.length
  let constructorCount := mutualConstructorCount block
  Result.ensure (rules.minorStart == minorStart)
    (invalid [recursor.name, " mutual recursor minor_start must follow params and motives"])
  Result.ensure (rules.majorIndex == minorStart + constructorCount + data.indices.length)
    (invalid [recursor.name,
      " mutual recursor major_index must follow all minor premises and target indices"])
  let (domains, result) := recursor.ty.peelPiDomains
  Result.ensure (domains.length == rules.majorIndex + 1)
    (invalid [recursor.name, " mutual recursor major premise must be the final binder"])
  checkRecursorParamsDiagnosed env limits data recursor domains universeContext
  Result.forEach block.inductives.zipIdx fun (family, familyIndex) => do
    let motiveDomain ← Result.okOr domains[paramCount + familyIndex]?
      (invalid [recursor.name, " mutual recursor is missing motive for ", family.name])
    checkMotiveDomain family recursor motiveDomain
  let targetFamilyIndex ← mutualFamilyIndex block data.name
  let indexStart := rules.minorStart + constructorCount
  checkRecursorIndicesAtDiagnosed env limits data recursor indexStart domains universeContext
  let majorDomain ← Result.okOr domains[rules.majorIndex]?
    (invalid [recursor.name, " mutual recursor major premise must be the final binder"])
  checkRecursorTarget data recursor majorDomain "major premise" rules.majorIndex indexStart
  checkMutualRecursorResultDiagnosed env limits data targetFamilyIndex indexStart recursor rules
    domains result universeContext
  Result.forEach (blockConstructors block).zipIdx
    fun ((constructor, familyIndex), constructorIndex) => do
      let minorIndex := rules.minorStart + constructorIndex
      let expectedMinor ← expectedMutualMinorType block familyIndex constructor constructorIndex
      ensureDomainDefeqDiagnosed env limits (recursorPrefixCtx (domains.take minorIndex))
        universeContext.params domains minorIndex expectedMinor
        (invalid [recursor.name, " minor premise for ", constructor.name,
          " does not match mutual constructor"])

end Checks

/-! ### Metered admission -/

namespace EnvMut

section Metered

variable (limits : KernelDiagnosticFuelLimits)

def addAxiomDiagnosedMetered (name : String) (universeParams : List String)
    (universeConstraints : List UniverseConstraint) (ty : Expr) : EnvMut := do
  Run.ask fun self => self.ensureFresh name
  let universeContext ← Run.lift (UniverseContext.new universeParams universeConstraints)
  let _ ← Run.ask fun self =>
    expectSortInUniverseContextDiagnosed self .new universeContext ty limits
  Run.modify fun self =>
    self.insertDecl name (.axiomDecl name universeParams universeConstraints ty)

def addDefDiagnosedMetered (name : String) (universeParams : List String)
    (universeConstraints : List UniverseConstraint) (ty value : Expr)
    (reducibility : Reducibility) : EnvMut := do
  Run.ask fun self => self.ensureFresh name
  let universeContext ← Run.lift (UniverseContext.new universeParams universeConstraints)
  let _ ← Run.ask fun self =>
    expectSortInUniverseContextDiagnosed self .new universeContext ty limits
  Run.ask fun self => checkInUniverseContextDiagnosed self .new universeContext value ty limits
  Run.modify fun self => self.insertDecl name
    (.defDecl name universeParams universeConstraints ty value reducibility)

def addTheoremDiagnosedMetered (name : String) (universeParams : List String)
    (universeConstraints : List UniverseConstraint) (ty proof : Expr) : EnvMut := do
  Run.ask fun self => self.ensureFresh name
  let universeContext ← Run.lift (UniverseContext.new universeParams universeConstraints)
  let _ ← Run.ask fun self =>
    expectSortInUniverseContextDiagnosed self .new universeContext ty limits
  Run.ask fun self => checkInUniverseContextDiagnosed self .new universeContext proof ty limits
  Run.modify fun self =>
    self.insertDecl name (.theoremDecl name universeParams universeConstraints ty proof)

def addInductiveDiagnosedMetered (data : InductiveDecl) : EnvMut := do
  let universeContext ←
    Run.lift (UniverseContext.new data.universeParams data.universeConstraints)
  Run.lift (ensureLevelWf universeContext.params data.sort)
  Run.ask fun self => self.ensureInductiveNamesFresh data
  let _ ← Run.ask fun self =>
    expectSortInUniverseContextDiagnosed self .new universeContext (inductiveType data) limits
  let candidate ← Run.onClone do
    Run.modify fun candidate => candidate.insertInductive data
    Run.forEach data.constructors fun constructor => do
      Run.ask fun candidate =>
        checkConstructorDeclDiagnosed candidate limits data constructor universeContext
      Run.modify fun candidate => candidate.insertConstructor data constructor
    match data.recursor with
    | none => pure ()
    | some recursor => do
      let recursorContext ←
        Run.lift (UniverseContext.new recursor.universeParams data.universeConstraints)
      let _ ← Run.ask fun candidate =>
        expectSortInUniverseContextDiagnosed candidate .new recursorContext recursor.ty limits
      let rules := recursor.rules.getD (generatedRecursorRules data)
      Run.ask fun candidate =>
        checkRecursorDeclDiagnosed candidate limits data recursor rules recursorContext
      Run.modify fun candidate => candidate.insertRecursor data recursor rules
  Run.replace candidate

def addMutualInductiveDiagnosedMetered (block : MutualInductiveBlock) : EnvMut := do
  let first ← Run.lift (Result.okOr block.inductives.head?
    (invalid [block.name, " mutual block must contain at least one inductive"]))
  let universeContext ←
    Run.lift (UniverseContext.new block.universeParams block.universeConstraints)
  Run.ask fun self => self.ensureMutualInductiveNamesFresh block
  Run.lift (Env.ensureSharedTelescopes block first universeContext)
  let candidate ← Run.onClone do
    Run.forEach block.inductives fun data => do
      let _ ← Run.ask fun candidate =>
        expectSortInUniverseContextDiagnosed candidate .new universeContext (inductiveType data)
          limits
      Run.modify fun candidate => candidate.insertInductive data
    Run.forEach block.inductives fun data =>
      Run.forEach data.constructors fun constructor => do
        Run.ask fun candidate =>
          checkMutualConstructorDeclDiagnosed candidate limits block data constructor
            universeContext
        Run.modify fun candidate => candidate.insertConstructor data constructor
    Run.forEach block.inductives fun data =>
      match data.recursor with
      | none => pure ()
      | some recursor => do
        let recursorContext ←
          Run.lift (UniverseContext.new recursor.universeParams block.universeConstraints)
        let _ ← Run.ask fun candidate =>
          expectSortInUniverseContextDiagnosed candidate .new recursorContext recursor.ty limits
        let rules := recursor.rules.getD (generatedMutualRecursorRules block data)
        Run.ask fun candidate =>
          checkMutualRecursorDeclDiagnosed candidate limits block data recursor rules
            recursorContext
        Run.modify fun candidate => candidate.insertRecursor data recursor rules
    let group := Env.mutualGroupInfo block
    Run.forEach group.inductives fun name =>
      Run.modify fun candidate => candidate.insertGroup group name
  Run.replace candidate

def addDeclDiagnosedMetered : Declaration → EnvMut
  | .axiomDecl name universeParams universeConstraints ty =>
    addAxiomDiagnosedMetered limits name universeParams universeConstraints ty
  | .defDecl name universeParams universeConstraints ty value reducibility =>
    addDefDiagnosedMetered limits name universeParams universeConstraints ty value reducibility
  | .theoremDecl name universeParams universeConstraints ty proof =>
    addTheoremDiagnosedMetered limits name universeParams universeConstraints ty proof
  | .inductiveDecl data => addInductiveDiagnosedMetered limits data
  | .mutualInductiveBlock block => addMutualInductiveDiagnosedMetered limits block

end Metered

/-! ### Admission with diagnostics off -/

variable (alloc : Allocator)

/-- `add_def_diagnosed`: only the check of the value is a diagnosed one. -/
def addDefDiagnosed (name : String) (universeParams : List String)
    (universeConstraints : List UniverseConstraint) (ty value : Expr)
    (reducibility : Reducibility) : EnvMut := do
  Run.ask fun self => self.ensureFresh name
  let universeContext ← Run.lift (UniverseContext.new universeParams universeConstraints)
  let _ ← Run.ask fun self => self.expectSortInUniverseContext alloc .new universeContext ty
  Run.ask fun self =>
    checkInUniverseContextDiagnosed self .new universeContext value ty diagnosedFuelLimits
  Run.modify fun self => self.insertDecl name
    (.defDecl name universeParams universeConstraints ty value reducibility)

def addTheoremDiagnosed (name : String) (universeParams : List String)
    (universeConstraints : List UniverseConstraint) (ty proof : Expr) : EnvMut := do
  Run.ask fun self => self.ensureFresh name
  let universeContext ← Run.lift (UniverseContext.new universeParams universeConstraints)
  let _ ← Run.ask fun self => self.expectSortInUniverseContext alloc .new universeContext ty
  Run.ask fun self =>
    checkInUniverseContextDiagnosed self .new universeContext proof ty diagnosedFuelLimits
  Run.modify fun self =>
    self.insertDecl name (.theoremDecl name universeParams universeConstraints ty proof)

def addDeclDiagnosedOff : Declaration → EnvMut
  | .axiomDecl name universeParams universeConstraints ty =>
    addAxiomWithUniverseConstraints alloc name universeParams universeConstraints ty
  | .defDecl name universeParams universeConstraints ty value reducibility =>
    addDefDiagnosed alloc name universeParams universeConstraints ty value reducibility
  | .theoremDecl name universeParams universeConstraints ty proof =>
    addTheoremDiagnosed alloc name universeParams universeConstraints ty proof
  | .inductiveDecl data => addInductive alloc data
  | .mutualInductiveBlock block => addMutualInductive alloc block

/-- `add_decl_diagnosed_unobserved`: the memo is switched off for the call and the options
    are put back, whatever the call returned. -/
def addDeclDiagnosedUnobserved (declaration : Declaration) : EnvMut := do
  let self ← Run.get
  if !self.executionOptions.needsReuseState then addDeclDiagnosedOff alloc declaration
  else do
    Run.modify fun self => self.setOptions .memoOff
    let result ← Run.attempt (addDeclDiagnosedOff alloc declaration)
    Run.modify fun candidate => candidate.setOptions self.executionOptions
    Run.lift result

end EnvMut

/-- `KernelFuelReportMode`. -/
inductive KernelFuelReportMode where
  | off
  | failure
  | detailed
  deriving DecidableEq, Repr

/-- `add_decl_diagnosed_with_options`; `observed` is whether the environment has a sink for
    work counters. -/
def EnvMut.addDeclDiagnosedWithOptions (alloc : Allocator) (observed : Bool)
    (fuelReport : KernelFuelReportMode) (declaration : Declaration) : EnvMut :=
  if fuelReport = .off && !observed then addDeclDiagnosedUnobserved alloc declaration
  else addDeclDiagnosedMetered diagnosedFuelLimits declaration

end NpaCore.Kernel
