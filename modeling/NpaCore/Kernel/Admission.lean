import NpaCore.Kernel.Infer
import NpaCore.Kernel.Positivity

/-!
# Admission of declarations

The `add_*` methods of `Env` with their checks. Each returns the new environment,
or the error with which the source leaves the environment as it was.
-/

namespace NpaCore.Kernel

open NpaCore.Expr NpaCore.Level

def invalid (parts : List String) : Error := .invalidInductive (String.join parts)

section Checks

variable (env : Env) (alloc : Allocator)

/-! ### Constructors -/

def checkConstructorResult (data : InductiveDecl) (constructor : ConstructorDecl)
    (domainCount : Nat) (result : Expr) : Result Unit := do
  let error : Error := .badConstructorResult data.name constructor.name result
  let args ← Result.okOr (familyArgs data result) error
  Result.ensure (data.params.length ≤ domainCount) error
  Result.forEach (args.take data.params.length).zipIdx fun (arg, paramIndex) =>
    Result.ensure (arg = .bvar (domainCount - 1 - paramIndex)) error

/-- The loop of `check_constructor_universe_bounds` over the domains, which share the fuel
    of the session and never use a memo. -/
def universeBoundsFrom (data : InductiveDecl) (constructor : ConstructorDecl)
    (universeContext : UniverseContext) (inductiveSort : Level) (layout : Layout) :
    List Expr → Nat → Ctx → Op Unit
  | [], _, _ => pure ()
  | domain :: rest, domainIndex, ctx => do
    let fieldLevel ← expectSortTerm env layout .pooled universeContext ctx domain
    if data.params.length ≤ domainIndex then do
      let bounded ← Run.lift (universeContext.entailsLevelLe fieldLevel inductiveSort)
      Run.lift (Result.ensure bounded (.constructorUniverseBoundViolation data.name
        constructor.name (domainIndex - data.params.length) (normalizeLevel fieldLevel)
        inductiveSort))
    universeBoundsFrom data constructor universeContext inductiveSort layout rest (domainIndex + 1)
      (ctx.pushAssumption domain)

def checkConstructorUniverseBounds (data : InductiveDecl) (constructor : ConstructorDecl)
    (domains : List Expr) (universeContext : UniverseContext) : Result Unit :=
  let inductiveSort := normalizeLevel data.sort
  if inductiveSort = .zero then .ok ()
  else
    (universeBoundsFrom env data constructor universeContext inductiveSort (alloc .new domains)
      domains 0 .new ⟨none, whnfFuelLimit, defeqFuelLimit⟩).1

/-- The checks of a constructor, after `positive` for the domains of its type. -/
def checkConstructorWith (positive : Nat → Expr → Result Unit) (data : InductiveDecl)
    (constructor : ConstructorDecl) (universeContext : UniverseContext) : Result Unit := do
  let _ ← env.expectSortInUniverseContext alloc .new universeContext constructor.ty
  let (domains, result) := constructor.ty.peelPiDomains
  Result.forEach domains.zipIdx fun (domain, domainIndex) => positive domainIndex domain
  let result ← env.whnf alloc .new universeContext.params result
  checkConstructorResult data constructor domains.length result
  checkConstructorUniverseBounds env alloc data constructor domains universeContext

def checkConstructorDecl (data : InductiveDecl) (constructor : ConstructorDecl)
    (universeContext : UniverseContext) : Result Unit :=
  checkConstructorWith env alloc (checkConstructorDomainPositive env data constructor.name)
    data constructor universeContext

def checkMutualConstructorDecl (block : MutualInductiveBlock) (data : InductiveDecl)
    (constructor : ConstructorDecl) (universeContext : UniverseContext) : Result Unit :=
  checkConstructorWith env alloc
    (checkMutualConstructorDomainPositive env block data constructor.name)
    data constructor universeContext

/-! ### Recursors -/

/-- The loop of `check_recursor_params` over the parameters. -/
def recursorParamsFrom (recursor : RecursorDecl) (domains : List Expr)
    (universeContext : UniverseContext) : List (Binder × Nat) → Ctx → Result Unit
  | [], _ => .ok ()
  | (binder, paramIndex) :: rest, ctx => do
    let _ ← env.expectSortInUniverseContext alloc ctx universeContext binder.ty
    let same ← match domains[paramIndex]? with
      | some domain => env.isDefeq alloc ctx universeContext.params domain binder.ty
      | none => .ok false
    Result.ensure same
      (invalid [recursor.name, " recursor parameter ", binder.name, " does not match inductive"])
    recursorParamsFrom recursor domains universeContext rest (ctx.pushAssumption binder.ty)

def checkRecursorParams (data : InductiveDecl) (recursor : RecursorDecl) (domains : List Expr)
    (universeContext : UniverseContext) : Result Unit := do
  Result.ensure (data.params.length ≤ domains.length)
    (invalid [recursor.name, " recursor is missing parameter binders"])
  recursorParamsFrom env alloc recursor domains universeContext data.params.zipIdx .new

def checkRecursorTarget (data : InductiveDecl) (recursor : RecursorDecl) (target : Expr)
    (label : String) (ctxLen indexAbsStart : Nat) : Result Unit := do
  let args ← Result.okOr (familyArgs data target)
    (invalid [recursor.name, " ", label, " must target ", data.name])
  ensureCanonicalArgs ctxLen 0
    (fun index => invalid [recursor.name, " ", label, " has non-canonical parameter ",
      toString index])
    (args.take data.params.length)
  ensureCanonicalArgs ctxLen indexAbsStart
    (fun index => invalid [recursor.name, " ", label, " has non-canonical index ", toString index])
    (args.drop data.params.length)

def checkMotiveDomain (data : InductiveDecl) (recursor : RecursorDecl) (motiveDomain : Expr) :
    Result Unit := do
  let (motiveDomains, motiveResult) := motiveDomain.peelPiDomains
  Result.ensure (motiveDomains.length == data.indices.length + 1) (invalid
    [recursor.name, " motive must take indices and one major premise in kernel core"])
  Result.forEach data.indices.zipIdx fun (expected, index) => do
    let ctxLen := data.params.length + index
    let expectedTy ← remapBvars expected.ty ctxLen ctxLen (List.range ctxLen)
    Result.ensure (motiveDomains[index]? = some expectedTy)
      (invalid [recursor.name, " motive index ", expected.name, " does not match inductive"])
  match motiveDomains[data.indices.length]? with
  | some target =>
    checkRecursorTarget data recursor target "motive domain"
      (data.params.length + data.indices.length) data.params.length
  | none => .ok ()
  match motiveResult with
  | .sort level =>
    Result.ensure (!(levelEq data.sort .zero && !levelEq level .zero))
      (invalid [recursor.name, " Prop recursor motive must return Prop"])
  | _ => .error (invalid [recursor.name, " motive must return a Sort"])

/-- The loop of `check_recursor_indices_at`; `sourceToTarget` grows by one position a turn. -/
def recursorIndicesFrom (data : InductiveDecl) (recursor : RecursorDecl) (indexStart : Nat)
    (domains : List Expr) (universeContext : UniverseContext) :
    List (Binder × Nat) → List Nat → Result Unit
  | [], _ => .ok ()
  | (expected, index) :: rest, sourceToTarget => do
    let domainIndex := indexStart + index
    let actual ← Result.okOr domains[domainIndex]?
      (invalid [recursor.name, " recursor is missing index binder ", expected.name])
    let expectedTy ← remapBvars expected.ty (data.params.length + index) domainIndex sourceToTarget
    let same ← env.isDefeq alloc (recursorPrefixCtx (domains.take domainIndex))
      universeContext.params actual expectedTy
    Result.ensure same
      (invalid [recursor.name, " recursor index ", expected.name, " does not match inductive"])
    recursorIndicesFrom data recursor indexStart domains universeContext rest
      (sourceToTarget ++ [domainIndex])

def checkRecursorIndicesAt (data : InductiveDecl) (recursor : RecursorDecl) (indexStart : Nat)
    (domains : List Expr) (universeContext : UniverseContext) : Result Unit :=
  recursorIndicesFrom env alloc data recursor indexStart domains universeContext
    data.indices.zipIdx (List.range data.params.length)

/-- The result of a recursor applies the motive at `motiveAbs` to the indices and the major. -/
def checkRecursorResultWith (message : String) (motiveAbs indexStart : Nat)
    (data : InductiveDecl) (recursor : RecursorDecl) (rules : RecursorRules) (domains : List Expr)
    (result : Expr) (universeContext : UniverseContext) : Result Unit := do
  let indexArgs ← Result.collect (List.range data.indices.length) fun index =>
    bvarForAbs domains.length (indexStart + index)
  let major ← bvarForAbs domains.length rules.majorIndex
  let expected ← motiveApp domains.length motiveAbs indexArgs major
  let same ← env.isDefeq alloc (recursorPrefixCtx domains) universeContext.params result expected
  Result.ensure same (invalid [recursor.name, message])

def checkRecursorResult (data : InductiveDecl) : RecursorDecl → RecursorRules → List Expr →
    Expr → UniverseContext → Result Unit := fun recursor rules =>
  checkRecursorResultWith env alloc " result must apply motive to the major premise"
    data.params.length (rules.minorStart + data.constructors.length) data recursor rules

def checkMutualRecursorResult (data : InductiveDecl) (familyIndex indexStart : Nat) :
    RecursorDecl → RecursorRules → List Expr → Expr → UniverseContext → Result Unit :=
  checkRecursorResultWith env alloc
    " result must apply the matching mutual motive to the major premise"
    (data.params.length + familyIndex) indexStart data

/-- The minor premise at a position of the recursor's telescope. -/
def checkMinor (message : String) (recursor : RecursorDecl) (constructor : ConstructorDecl)
    (domains : List Expr) (minorIndex : Nat) (expectedMinor : Expr)
    (universeContext : UniverseContext) : Result Unit := do
  let same ← match domains[minorIndex]? with
    | some minorDomain =>
      env.isDefeq alloc (recursorPrefixCtx (domains.take minorIndex)) universeContext.params
        minorDomain expectedMinor
    | none => .ok false
  Result.ensure same
    (invalid [recursor.name, " minor premise for ", constructor.name, message])

def checkRecursorDecl (data : InductiveDecl) (recursor : RecursorDecl) (rules : RecursorRules)
    (universeContext : UniverseContext) : Result Unit := do
  Result.ensure (rules.minorStart == data.params.length + 1)
    (invalid [data.name, " recursor minor_start must be params + motive"])
  Result.ensure
    (rules.majorIndex == rules.minorStart + data.constructors.length + data.indices.length)
    (invalid
      [data.name, " recursor major_index must follow constructor minor premises and indices"])
  let (domains, result) := recursor.ty.peelPiDomains
  Result.ensure (rules.majorIndex < domains.length)
    (invalid [recursor.name, " recursor has no major premise"])
  Result.ensure (domains.length == rules.majorIndex + 1)
    (invalid [recursor.name, " recursor major premise must be the final binder in kernel core"])
  checkRecursorParams env alloc data recursor domains universeContext
  let motiveDomain ← Result.okOr domains[data.params.length]?
    (invalid [recursor.name, " recursor is missing motive"])
  checkMotiveDomain data recursor motiveDomain
  let indexStart := rules.minorStart + data.constructors.length
  checkRecursorIndicesAt env alloc data recursor indexStart domains universeContext
  let majorDomain ← Result.okOr domains[rules.majorIndex]?
    (invalid [recursor.name, " recursor has no major premise"])
  checkRecursorTarget data recursor majorDomain "major premise" rules.majorIndex indexStart
  checkRecursorResult env alloc data recursor rules domains result universeContext
  Result.forEach data.constructors.zipIdx fun (constructor, constructorIndex) => do
    let expectedMinor ← expectedMinorType data constructor constructorIndex
    checkMinor env alloc " does not match constructor" recursor constructor domains
      (rules.minorStart + constructorIndex) expectedMinor universeContext

/-- The constructors of a block in order, with the numbers of their families. -/
def blockConstructors (block : MutualInductiveBlock) : List (ConstructorDecl × Nat) :=
  block.inductives.zipIdx.flatMap fun (family, familyIndex) =>
    family.constructors.map fun constructor => (constructor, familyIndex)

def checkMutualRecursorDecl (block : MutualInductiveBlock) (data : InductiveDecl)
    (recursor : RecursorDecl) (rules : RecursorRules) (universeContext : UniverseContext) :
    Result Unit := do
  let paramCount := data.params.length
  let minorStart := paramCount + block.inductives.length
  let constructorCount := mutualConstructorCount block
  Result.ensure (rules.minorStart == minorStart)
    (invalid [recursor.name, " mutual recursor minor_start must follow params and motives"])
  Result.ensure (rules.majorIndex == minorStart + constructorCount + data.indices.length)
    (invalid [recursor.name,
      " mutual recursor major_index must follow all minor premises and target indices"])
  let (domains, result) := recursor.ty.peelPiDomains
  Result.ensure (domains.length == rules.majorIndex + 1)
    (invalid [recursor.name, " mutual recursor major premise must be the final binder"])
  checkRecursorParams env alloc data recursor domains universeContext
  Result.forEach block.inductives.zipIdx fun (family, familyIndex) => do
    let motiveDomain ← Result.okOr domains[paramCount + familyIndex]?
      (invalid [recursor.name, " mutual recursor is missing motive for ", family.name])
    checkMotiveDomain family recursor motiveDomain
  let targetFamilyIndex ← mutualFamilyIndex block data.name
  let indexStart := rules.minorStart + constructorCount
  checkRecursorIndicesAt env alloc data recursor indexStart domains universeContext
  let majorDomain ← Result.okOr domains[rules.majorIndex]?
    (invalid [recursor.name, " mutual recursor major premise must be the final binder"])
  checkRecursorTarget data recursor majorDomain "major premise" rules.majorIndex indexStart
  checkMutualRecursorResult env alloc data targetFamilyIndex indexStart recursor rules domains
    result universeContext
  Result.forEach (blockConstructors block).zipIdx fun ((constructor, familyIndex), constructorIndex) => do
    let expectedMinor ← expectedMutualMinorType block familyIndex constructor constructorIndex
    checkMinor env alloc " does not match mutual constructor" recursor constructor domains
      (rules.minorStart + constructorIndex) expectedMinor universeContext

end Checks

/-! ### The `add_*` methods -/

namespace Env

variable (env : Env) (alloc : Allocator)

def addAxiomWithUniverseConstraints (name : String) (universeParams : List String)
    (universeConstraints : List UniverseConstraint) (ty : Expr) : Result Env := do
  env.ensureFresh name
  let universeContext ← UniverseContext.new universeParams universeConstraints
  let _ ← env.expectSortInUniverseContext alloc .new universeContext ty
  .ok (env.insertDecl name (.axiomDecl name universeParams universeConstraints ty))

def addAxiom (name : String) (universeParams : List String) (ty : Expr) : Result Env :=
  env.addAxiomWithUniverseConstraints alloc name universeParams [] ty

def addDefWithUniverseConstraints (name : String) (universeParams : List String)
    (universeConstraints : List UniverseConstraint) (ty value : Expr)
    (reducibility : Reducibility) : Result Env := do
  env.ensureFresh name
  let universeContext ← UniverseContext.new universeParams universeConstraints
  let _ ← env.expectSortInUniverseContext alloc .new universeContext ty
  env.checkInUniverseContext alloc .new universeContext value ty
  .ok (env.insertDecl name
    (.defDecl name universeParams universeConstraints ty value reducibility))

def addDef (name : String) (universeParams : List String) (ty value : Expr)
    (reducibility : Reducibility) : Result Env :=
  env.addDefWithUniverseConstraints alloc name universeParams [] ty value reducibility

def addTheoremWithUniverseConstraints (name : String) (universeParams : List String)
    (universeConstraints : List UniverseConstraint) (ty proof : Expr) : Result Env := do
  env.ensureFresh name
  let universeContext ← UniverseContext.new universeParams universeConstraints
  let _ ← env.expectSortInUniverseContext alloc .new universeContext ty
  env.checkInUniverseContext alloc .new universeContext proof ty
  .ok (env.insertDecl name (.theoremDecl name universeParams universeConstraints ty proof))

def addTheorem (name : String) (universeParams : List String) (ty proof : Expr) : Result Env :=
  env.addTheoremWithUniverseConstraints alloc name universeParams [] ty proof

def insertInductive (data : InductiveDecl) : Env :=
  env.insertDecl data.name
    (.inductiveDecl data.name data.universeParams (inductiveType data) data)

def insertConstructor (data : InductiveDecl) (constructor : ConstructorDecl) : Env :=
  env.insertDecl constructor.name
    (.constructorDecl constructor.name data.universeParams constructor.ty data.name)

def insertRecursor (data : InductiveDecl) (recursor : RecursorDecl) (rules : RecursorRules) : Env :=
  env.insertDecl recursor.name
    (.recursorDecl recursor.name recursor.universeParams recursor.ty data.name rules)

/-- Check and insert the recursor of a family, if it declares one. `check` is the check of
    the recursor and `generated` the rules of one that declares none. -/
def addRecursor (universeConstraints : List UniverseConstraint)
    (check : Env → RecursorDecl → RecursorRules → UniverseContext → Result Unit)
    (generated : RecursorRules) (data : InductiveDecl) : Result Env :=
  match data.recursor with
  | none => .ok env
  | some recursor => do
    let recursorContext ← UniverseContext.new recursor.universeParams universeConstraints
    let _ ← env.expectSortInUniverseContext alloc .new recursorContext recursor.ty
    let rules := recursor.rules.getD generated
    check env recursor rules recursorContext
    .ok (env.insertRecursor data recursor rules)

def addInductive (data : InductiveDecl) : Result Env := do
  let universeContext ← UniverseContext.new data.universeParams data.universeConstraints
  ensureLevelWf universeContext.params data.sort
  env.ensureInductiveNamesFresh data
  let _ ← env.expectSortInUniverseContext alloc .new universeContext (inductiveType data)
  let candidate ← Result.foldEach data.constructors (env.insertInductive data)
    fun candidate constructor => do
      checkConstructorDecl candidate alloc data constructor universeContext
      .ok (candidate.insertConstructor data constructor)
  candidate.addRecursor alloc data.universeConstraints
    (fun candidate => checkRecursorDecl candidate alloc data) (generatedRecursorRules data) data

/-- The families of a block share its universe parameters and its parameter telescope. -/
def ensureSharedTelescopes (block : MutualInductiveBlock) (first : InductiveDecl)
    (universeContext : UniverseContext) : Result Unit :=
  Result.forEach block.inductives fun data => do
    Result.ensure (data.universeParams = block.universeParams && data.universeConstraints.isEmpty
        && data.params = first.params)
      (invalid [block.name, " mutual block requires shared universe and parameter telescopes"])
    ensureLevelWf universeContext.params data.sort

def addFamily (universeContext : UniverseContext) (candidate : Env) (data : InductiveDecl) :
    Result Env := do
  let _ ← candidate.expectSortInUniverseContext alloc .new universeContext (inductiveType data)
  .ok (candidate.insertInductive data)

def addMutualConstructor (block : MutualInductiveBlock) (universeContext : UniverseContext)
    (data : InductiveDecl) (candidate : Env) (constructor : ConstructorDecl) : Result Env := do
  checkMutualConstructorDecl candidate alloc block data constructor universeContext
  .ok (candidate.insertConstructor data constructor)

def addMutualConstructors (block : MutualInductiveBlock) (universeContext : UniverseContext)
    (candidate : Env) (data : InductiveDecl) : Result Env :=
  Result.foldEach data.constructors candidate (addMutualConstructor alloc block universeContext data)

def addMutualRecursor (block : MutualInductiveBlock) (candidate : Env) (data : InductiveDecl) :
    Result Env :=
  candidate.addRecursor alloc block.universeConstraints
    (fun candidate => checkMutualRecursorDecl candidate alloc block data)
    (generatedMutualRecursorRules block data) data

def mutualGroupInfo (block : MutualInductiveBlock) : MutualGroupInfo where
  inductives := block.inductives.map (·.name)
  recursors := block.inductives.filterMap fun data =>
    data.recursor.map fun recursor => (data.name, recursor.name)
  universeParams := block.universeParams
  universeConstraints := block.universeConstraints

def addMutualInductive (block : MutualInductiveBlock) : Result Env := do
  let first ← Result.okOr block.inductives.head?
    (invalid [block.name, " mutual block must contain at least one inductive"])
  let universeContext ← UniverseContext.new block.universeParams block.universeConstraints
  env.ensureMutualInductiveNamesFresh block
  ensureSharedTelescopes block first universeContext
  let candidate ← Result.foldEach block.inductives env (addFamily alloc universeContext)
  let candidate ← Result.foldEach block.inductives candidate
    (addMutualConstructors alloc block universeContext)
  let candidate ← Result.foldEach block.inductives candidate (addMutualRecursor alloc block)
  let group := mutualGroupInfo block
  .ok (group.inductives.foldl (fun candidate name => candidate.insertGroup group name) candidate)

end Env

end NpaCore.Kernel
