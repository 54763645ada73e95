import NpaCore.Frontend.Resolver

/-!
# Elaboration of modules

`elaborator.rs` outside the repair mode: from a resolved module to the declarations of its
core module. The payload of a diagnostic is left out, and with it the names of the opaque
globals, which only payloads use.

The environment of the imports comes from `kernel_env_from_imports`, a parameter here. The
texts that Rust derives for `{:?}` are a parameter too, and so are the layouts of the kernel's
memo.
-/

namespace NpaCore.Frontend

open NpaCore.Kernel (Ctx Declaration Env)

/-- The derived `Debug` texts of kernel terms and errors. -/
structure DebugTexts where
  expr : Kernel.Expr → String
  error : Kernel.Error → String

inductive MachineCallableBinderVisibility where
  | explicit
  | implicit
  deriving DecidableEq, Repr

structure GlobalSignature where
  universeParams : List String
  implicitProfile : List MachineCallableBinderVisibility
  deriving DecidableEq, Repr

structure ElaboratedBinder where
  name : String
  ty : Kernel.Expr
  deriving DecidableEq, Repr

/-! ### Local contexts -/

/-- The assumptions, the innermost last. -/
structure LocalContext where
  locals : List ElaboratedBinder
  deriving DecidableEq, Repr

namespace LocalContext

def empty : LocalContext := ⟨[]⟩

def pushAssumption (ctx : LocalContext) (name : String) (ty : Kernel.Expr) : LocalContext :=
  ⟨ctx.locals ++ [⟨name, ty⟩]⟩

/-- The position from the end, as a `u32`. -/
def lookupBvar (ctx : LocalContext) (name : String) : Option Nat :=
  (ctx.locals.reverse.findIdx? fun assumption => assumption.name = name).map (· % 2 ^ 32)

def toKernelCtx (ctx : LocalContext) : Ctx :=
  ctx.locals.foldl (fun kernel assumption => kernel.pushAssumption assumption.ty) .new

end LocalContext

/-! ### Levels and telescopes -/

def maxNumericUniverseLevel : Nat := 1024

def universeLevelTooLarge (value : UInt64) : MachineDiagnostic :=
  ⟨.universeLevelTooLarge, s!"numeric universe level {value} exceeds the maximum supported " ++
    s!"level {maxNumericUniverseLevel}"⟩

/-- `level_from_nat`. -/
def levelFromNat (value : UInt64) : MachineResult Kernel.Level :=
  if maxNumericUniverseLevel < value.toNat then .error (universeLevelTooLarge value)
  else .ok ((List.range value.toNat).foldl (fun level _ => .succ level) .zero)

def elaborateLevel : MachineLevel → MachineResult Kernel.Level
  | .nat value => levelFromNat value
  | .param name => .ok (.param name)
  | .succ level => do
    let level ← elaborateLevel level
    .ok (.succ level)
  | .max lhs rhs => do
    let lhs ← elaborateLevel lhs
    let rhs ← elaborateLevel rhs
    .ok (.max lhs rhs)
  | .imax lhs rhs => do
    let lhs ← elaborateLevel lhs
    let rhs ← elaborateLevel rhs
    .ok (.imax lhs rhs)

def closeLam (binders : List ElaboratedBinder) (body : Kernel.Expr) : Kernel.Expr :=
  binders.foldr (fun binder body => .lam binder.name binder.ty body) body

def closePi (binders : List ElaboratedBinder) (body : Kernel.Expr) : Kernel.Expr :=
  binders.foldr (fun binder body => .pi binder.name binder.ty body) body

/-- `machine_app_spine`: the head, and the arguments in order. -/
def machineAppSpine (func arg : MachineTerm) : MachineTerm × List MachineTerm :=
  match func with
  | .app nestedFunc nestedArg =>
    let (head, args) := machineAppSpine nestedFunc nestedArg
    (head, args ++ [arg])
  | head => (head, [arg])

/-! ### The elaborator -/

/-- The signature of a name is the first one in the list. -/
structure Elaborator where
  globals : List (String × GlobalSignature)
  kernelEnv : Env

/-- `kernel_expr_diagnostic`. -/
def kernelExprDiagnostic (debug : DebugTexts) : Kernel.Error → MachineDiagnostic
  | .expectedPi actual =>
    ⟨.expectedFunctionType, s!"application head is not a function: {debug.expr actual}"⟩
  | .expectedSort actual =>
    ⟨.expectedSort, s!"expected a type annotation, got {debug.expr actual}"⟩
  | .typeMismatch expected actual =>
    ⟨.typeMismatch, s!"type annotation mismatch: expected {debug.expr expected}, got " ++
      debug.expr actual⟩
  | error => ⟨.kernelRejected, s!"kernel rejected elaborated expression: {debug.error error}"⟩

namespace Elaborator

def addGlobalSignature (elaborator : Elaborator) (name : String) (signature : GlobalSignature) :
    Elaborator :=
  { elaborator with globals := (name, signature) :: elaborator.globals }

def universeParamCount (elaborator : Elaborator) (name : String) : Nat :=
  match elaborator.globals.lookup name with
  | some signature => signature.universeParams.length
  | none => 0

def implicitProfile (elaborator : Elaborator) (name : String) :
    List MachineCallableBinderVisibility :=
  match elaborator.globals.lookup name with
  | some signature => signature.implicitProfile
  | none => []

/-- `Elaborator::new`: the signatures of all exports of the active imports. -/
def new (verifiedImports : List VerifiedImport) (kernelEnv : Env) : Elaborator :=
  (verifiedImports.flatMap VerifiedImport.exports).foldl
    (fun elaborator exported =>
      elaborator.addGlobalSignature exported.name.asDotted ⟨exported.universeParams, []⟩)
    ⟨[], kernelEnv⟩

def requiresExplicitArguments (name : String) : MachineDiagnostic :=
  ⟨.implicitArgumentRequired, s!"global name {name} requires explicit arguments"⟩

variable (elaborator : Elaborator)

def elaborateUniverseArgs (args : Option (List MachineLevel)) (expected : Nat)
    (explicitMode : Bool) (name : String) : MachineResult (List Kernel.Level) :=
  match args with
  | some args =>
    if args.length ≠ expected then
      .error ⟨.missingExplicitUniverse,
        s!"global name {name} expects {expected} explicit universe arguments"⟩
    else Result.collect args elaborateLevel
  | none =>
    if expected = 0 then .ok []
    else if explicitMode then
      .error ⟨.missingExplicitUniverse,
        s!"global name {name} requires explicit universe arguments"⟩
    else .error (requiresExplicitArguments name)

/-- `implicit_application_diagnostic`. -/
def implicitApplicationDiagnostic (func arg : MachineTerm) : Option MachineDiagnostic :=
  let (head, args) := machineAppSpine func arg
  match head with
  | .ident name universeArgs explicitMode =>
    let dotted := name.asDotted
    let expected := elaborator.universeParamCount dotted
    let counted := match universeArgs with
      | none => expected = 0
      | some universeArgs => universeArgs.length = expected
    if explicitMode then none
    else if !counted then none
    else if ((elaborator.implicitProfile dotted).take args.length).contains .implicit then
      some (requiresExplicitArguments dotted)
    else none
  | _ => none

section Checks

variable (alloc : Kernel.Allocator) (debug : DebugTexts)

def ensureType (expr : Kernel.Expr) (locals : LocalContext) (delta : List String) :
    MachineResult Kernel.Level := do
  let ctx := locals.toKernelCtx
  let inferred ← (elaborator.kernelEnv.infer alloc ctx delta expr).mapError
    (kernelExprDiagnostic debug)
  match ← (elaborator.kernelEnv.whnf alloc ctx delta inferred).mapError
      (kernelExprDiagnostic debug) with
  | .sort level => .ok level
  | actual =>
    .error ⟨.expectedSort, s!"expected a type annotation, got {debug.expr actual}"⟩

def checkExpr (expr expected : Kernel.Expr) (locals : LocalContext) (delta : List String) :
    MachineResult Unit :=
  (elaborator.kernelEnv.check alloc locals.toKernelCtx delta expr expected).mapError
    (kernelExprDiagnostic debug)

variable (delta : List String)

mutual

def elaborateTerm (locals : LocalContext) : MachineTerm → MachineResult Kernel.Expr
  | .ident name universeArgs explicitMode => do
    let dotted := name.asDotted
    let levels ← elaborateUniverseArgs universeArgs (elaborator.universeParamCount dotted)
      explicitMode dotted
    .ok (.const dotted levels)
  | .local name => (Result.okOr (locals.lookupBvar name) (unknownLocalName name)).map .bvar
  | .prop => .ok (.sort .zero)
  | .type level => do
    let level ← elaborateLevel level
    .ok (.sort (.succ level))
  | .sort level => do
    let level ← elaborateLevel level
    .ok (.sort level)
  | .app func arg =>
    match elaborator.implicitApplicationDiagnostic func arg with
    | some diagnostic => .error diagnostic
    | none => do
      let func ← elaborateTerm locals func
      let arg ← elaborateTerm locals arg
      .ok (.app func arg)
  | .lam binders body => do
    let (binders, nestedLocals) ← elaborateBinders locals binders
    let body ← elaborateTerm nestedLocals body
    .ok (closeLam binders body)
  | .pi binders body => do
    let (binders, nestedLocals) ← elaborateBinders locals binders
    let body ← elaborateTerm nestedLocals body
    .ok (closePi binders body)
  | .annot expr ty => do
    let expr ← elaborateTerm locals expr
    let ty ← elaborateTerm locals ty
    let _ ← elaborator.ensureType alloc debug ty locals delta
    elaborator.checkExpr alloc debug expr ty locals delta
    .ok expr

/-- `elaborate_binder`, with the context it leaves. -/
def elaborateBinder (locals : LocalContext) :
    MachineBinder → MachineResult (ElaboratedBinder × LocalContext)
  | .mk name ty => do
    let ty ← elaborateTerm locals ty
    .ok (⟨name, ty⟩, locals.pushAssumption name ty)

/-- The loop over a telescope, with the context it leaves. -/
def elaborateBinders (locals : LocalContext) :
    List MachineBinder → MachineResult (List ElaboratedBinder × LocalContext)
  | [] => .ok ([], locals)
  | binder :: binders => do
    let (binder, locals) ← elaborateBinder locals binder
    let (binders, locals) ← elaborateBinders locals binders
    .ok (binder :: binders, locals)

end

end Checks

/-! ### Declarations -/

/-- `DeclKind`. -/
inductive DeclKind where
  | defDecl (reducibility : DefinitionReducibility)
  | theoremDecl
  deriving DecidableEq, Repr

def kernelReducibility : DefinitionReducibility → Kernel.Reducibility
  | .reducible => .reducible
  | .opaqueDef => .opaqueDef

variable (alloc : Kernel.Allocator) (debug : DebugTexts)

def elaborateDecl (decl : MachineDecl) (kind : DeclKind) : MachineResult Declaration := do
  let universeParams := decl.universeParams.map MachineUniverseParam.name
  let (binders, locals) ←
    elaborator.elaborateBinders alloc debug universeParams .empty decl.binders
  let ty ← elaborator.elaborateTerm alloc debug universeParams locals decl.ty
  let value ← elaborator.elaborateTerm alloc debug universeParams locals decl.value
  match kind with
  | .defDecl reducibility =>
    .ok (.defDecl decl.name.asDotted universeParams [] (closePi binders ty) (closeLam binders value)
      (kernelReducibility reducibility))
  | .theoremDecl =>
    .ok (.theoremDecl decl.name.asDotted universeParams [] (closePi binders ty)
      (closeLam binders value))

/-- The diagnostic of `add_decl_to_kernel_env`. -/
def addDeclDiagnostic : Kernel.Error → MachineDiagnostic
  | .typeMismatch expected actual => kernelExprDiagnostic debug (.typeMismatch expected actual)
  | error => ⟨.kernelRejected, s!"kernel rejected elaborated declaration: {debug.error error}"⟩

def addDeclToKernelEnv (decl : Declaration) : MachineResult Elaborator :=
  match elaborator.kernelEnv.addDecl alloc decl with
  | .ok kernelEnv => .ok { elaborator with kernelEnv := kernelEnv }
  | .error error => .error (addDeclDiagnostic debug error)

def addDeclSignature (decl : Declaration) : Elaborator :=
  elaborator.addGlobalSignature decl.name ⟨decl.universeParams, []⟩

def checkedOpaqueNotRetained (name : String) : MachineDiagnostic :=
  ⟨.certificateRejected, s!"checked opaque definition {name} was not retained in the local " ++
    "kernel environment"⟩

/-- After its check the body of an opaque definition is there for the rest of the module. -/
def exposeOpaqueDefinition (reducibility : DefinitionReducibility) (name : String) :
    MachineResult Elaborator :=
  match reducibility with
  | .reducible => .ok elaborator
  | .opaqueDef =>
    match Kernel.EnvMut.exposeCheckedOpaqueDefinition name elaborator.kernelEnv with
    | (.ok true, kernelEnv) => .ok { elaborator with kernelEnv := kernelEnv }
    | _ => .error (checkedOpaqueNotRetained name)

/-- The loop of `elaborate_machine_module`. -/
def elaborateItems (elaborator : Elaborator) : List MachineItem → MachineResult (List Declaration)
  | [] => .ok []
  | .importModule _ :: items => elaborateItems elaborator items
  | .defDecl definition :: items => do
    let decl ← elaborator.elaborateDecl alloc debug definition.declaration
      (.defDecl definition.reducibility)
    let elaborator ← elaborator.addDeclToKernelEnv alloc debug decl
    let elaborator ← elaborator.exposeOpaqueDefinition definition.reducibility decl.name
    let decls ← elaborateItems (elaborator.addDeclSignature decl) items
    .ok (decl :: decls)
  | .theoremDecl decl :: items => do
    let decl ← elaborator.elaborateDecl alloc debug decl .theoremDecl
    let elaborator ← elaborator.addDeclToKernelEnv alloc debug decl
    let decls ← elaborateItems (elaborator.addDeclSignature decl) items
    .ok (decl :: decls)

end Elaborator

/-! ### Modules -/

/-- `active_verified_imports`: the imports that the items name, each once. -/
def activeVerifiedImports (verifiedImports : List VerifiedImport) (seen : List (List String)) :
    List MachineItem → MachineResult (List VerifiedImport)
  | [] => .ok []
  | .importModule importName :: items =>
    if seen.contains importName.parts then activeVerifiedImports verifiedImports seen items
    else do
      let verified ← findVerifiedImport verifiedImports importName
      let others ← activeVerifiedImports verifiedImports (importName.parts :: seen) items
      .ok (verified :: others)
  | .defDecl _ :: items => activeVerifiedImports verifiedImports seen items
  | .theoremDecl _ :: items => activeVerifiedImports verifiedImports seen items

structure CoreModule where
  name : Wire.Name
  declarations : List Declaration
  deriving DecidableEq

/-- `elaborate_machine_module`, given `kernel_env_from_imports` on the active and the available
    imports. -/
def elaborateMachineModule
    (kernelEnvFromImports : List VerifiedImport → List VerifiedImport → MachineResult Env)
    (alloc : Kernel.Allocator) (debug : DebugTexts) (moduleName : Wire.Name)
    (resolved : ResolvedMachineModule) (verifiedImports : List VerifiedImport) :
    MachineResult CoreModule := do
  let activeImports ← activeVerifiedImports verifiedImports [] resolved.module.items
  let kernelEnv ← kernelEnvFromImports activeImports verifiedImports
  let declarations ←
    (Elaborator.new activeImports kernelEnv).elaborateItems alloc debug resolved.module.items
  .ok ⟨moduleName, declarations⟩

end NpaCore.Frontend
