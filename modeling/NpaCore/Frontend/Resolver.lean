import NpaCore.Frontend.Module
import NpaCore.Kernel.Methods
import NpaCore.Wire.LevelNormality

/-!
# Resolution of names

`resolver.rs` outside the repair mode: the verified imports of a module, the table of global
names and the pass that marks the local names of a module. What the repair mode adds to a
diagnostic, the candidates and the suggested replacement, is left out, and with it the
interface hash of an entry, which only the candidates carry.
-/

namespace NpaCore.Frontend

open NpaCore.Wire (Name Hash CertReducibility)

def MachineName.asDotted (name : MachineName) : String := ".".intercalate name.parts

/-! ### Verified imports -/

structure VerifiedExport where
  name : Name
  universeParams : List String
  ty : Kernel.Expr
  declInterfaceHash : Hash
  reducibility : Option CertReducibility
  deriving DecidableEq

structure VerifiedDependency where
  module : Option Name
  exportHash : Option Hash
  name : Name
  declInterfaceHash : Hash
  deriving DecidableEq

/-- The maps are the lists of their entries in order. -/
structure VerifiedImport where
  module : Name
  exportHash : Hash
  certificateHash : Option Hash
  exports : List VerifiedExport
  declInterfaceHashes : List (Name × Hash)
  kernelDecls : List Kernel.Declaration
  kernelDeclDependencies : List (String × List VerifiedDependency)
  deriving DecidableEq

def missingVerifiedImport (importName : String) : MachineDiagnostic :=
  ⟨.missingVerifiedImport, s!"import {importName} is not present in the verified import set"⟩

def ambiguousVerifiedImport (importName : String) : MachineDiagnostic :=
  ⟨.importResolutionError, s!"import {importName} has multiple verified interfaces"⟩

/-- `find_verified_import` of the resolver, and `find_verified_import_index` of the elaborator:
    the first import of that module, when all others are equal to it. -/
def findVerifiedImport (verifiedImports : List VerifiedImport) (importName : MachineName) :
    MachineResult VerifiedImport :=
  match verifiedImports.filter fun candidate => candidate.module = ⟨importName.parts⟩ with
  | [] => .error (missingVerifiedImport importName.asDotted)
  | first :: others =>
    if others.any fun candidate => candidate ≠ first then
      .error (ambiguousVerifiedImport importName.asDotted)
    else .ok first

/-! ### Scopes -/

/-- The names that binders have bound, the innermost last. -/
structure LocalScope where
  names : List String
  deriving DecidableEq, Repr

def LocalScope.push (scope : LocalScope) (name : String) : LocalScope := ⟨scope.names ++ [name]⟩

def LocalScope.contains (scope : LocalScope) (name : String) : Bool := scope.names.contains name

inductive GlobalEntry where
  | resolved
  | ambiguous
  deriving DecidableEq, Repr

inductive GlobalLookup where
  | resolved
  | ambiguous
  | shortGlobal
  | unknownLocal
  | unknownGlobal
  deriving DecidableEq, Repr

/-- The entry of a name is the first one in the list. -/
structure GlobalTable where
  names : List (String × GlobalEntry)
  roots : List String
  suffixes : List String
  deriving DecidableEq, Repr

namespace GlobalTable

def empty : GlobalTable := ⟨[], [], []⟩

def insertName (table : GlobalTable) (dotted : String) (entry : GlobalEntry) : GlobalTable :=
  { table with names := (dotted, entry) :: table.names }

/-- The first component of a name is a root and the last one a suffix. -/
def insertAffixes (table : GlobalTable) (components : List String) : GlobalTable :=
  { table with
    roots := components.head?.toList ++ table.roots
    suffixes := components.getLast?.toList ++ table.suffixes }

def duplicateDeclaration (dotted : String) : MachineDiagnostic :=
  ⟨.duplicateDeclaration, s!"duplicate declaration {dotted}"⟩

/-- `add_global_name`. A declaration of the module has a `duplicate_span`, an export has none. -/
def addGlobalName (table : GlobalTable) (components : List String) (isDeclaration : Bool) :
    MachineResult GlobalTable :=
  let dotted := ".".intercalate components
  match table.names.lookup dotted with
  | some entry =>
    if isDeclaration then .error (duplicateDeclaration dotted)
    else match entry with
      | .resolved => .ok ((table.insertName dotted .ambiguous).insertAffixes components)
      | .ambiguous => .ok (table.insertAffixes components)
  | none => .ok ((table.insertName dotted .resolved).insertAffixes components)

def addImport (table : GlobalTable) (verified : VerifiedImport) : MachineResult GlobalTable :=
  Result.foldEach verified.exports table fun table exported =>
    table.addGlobalName exported.name.components false

def addLocalDecl (table : GlobalTable) (name : MachineName) : MachineResult GlobalTable :=
  table.addGlobalName name.parts true

def addDeclRoot (table : GlobalTable) (name : MachineName) : GlobalTable :=
  { table with roots := name.parts.head?.toList ++ table.roots }

def lookup (table : GlobalTable) (name : MachineName) (forceGlobal : Bool) : GlobalLookup :=
  match table.names.lookup name.asDotted with
  | some .resolved => .resolved
  | some .ambiguous => .ambiguous
  | none =>
    match name.parts with
    | [part] =>
      if table.suffixes.contains part then .shortGlobal
      else if forceGlobal then .unknownGlobal
      else .unknownLocal
    | _ => .unknownGlobal

def hasRoot (table : GlobalTable) (name : String) : Bool := table.roots.contains name

end GlobalTable

/-! ### Terms -/

def unknownLocalName (name : String) : MachineDiagnostic :=
  ⟨.unknownLocalName, s!"unknown local name {name}"⟩

section Terms

variable (globals : GlobalTable) (universeParams : List String)

def resolveLevel : MachineLevel → MachineResult MachineLevel
  | .nat value => .ok (.nat value)
  | .param name =>
    if universeParams.contains name then .ok (.param name)
    else .error ⟨.unknownUniverseParam, s!"unknown universe parameter {name}"⟩
  | .succ level => do
    let level ← resolveLevel level
    .ok (.succ level)
  | .max lhs rhs => do
    let lhs ← resolveLevel lhs
    let rhs ← resolveLevel rhs
    .ok (.max lhs rhs)
  | .imax lhs rhs => do
    let lhs ← resolveLevel lhs
    let rhs ← resolveLevel rhs
    .ok (.imax lhs rhs)

def resolveUniverseArgs : Option (List MachineLevel) → MachineResult (Option (List MachineLevel))
  | none => .ok none
  | some args => do
    let args ← Result.collect args (resolveLevel universeParams)
    .ok (some args)

def ensureLocalDoesNotShadowGlobal (name : String) : MachineResult Unit :=
  Result.ensure (!globals.hasRoot name)
    ⟨.globalShadowedByLocal, s!"local name {name} shadows a global namespace root"⟩

/-- The one part of a name that may be a local name: `!force_global` in `resolve_ident`. -/
def localPart (name : MachineName) (universeArgs : Option (List MachineLevel))
    (explicitMode : Bool) : Option String :=
  match name.parts with
  | [part] => if explicitMode || universeArgs.isSome then none else some part
  | _ => none

def resolveGlobal (name : MachineName) (universeArgs : Option (List MachineLevel))
    (explicitMode : Bool) : MachineResult MachineTerm := do
  let forceGlobal := explicitMode || universeArgs.isSome || decide (1 < name.parts.length)
  let resolvedArgs ← resolveUniverseArgs universeParams universeArgs
  match globals.lookup name forceGlobal with
  | .resolved => .ok (.ident name resolvedArgs explicitMode)
  | .ambiguous =>
    .error ⟨.ambiguousGlobalName, s!"global name {name.asDotted} is exported more than once"⟩
  | .shortGlobal =>
    .error ⟨.shortGlobalName, s!"global name {name.asDotted} must be written as a fully " ++
      "qualified exact name"⟩
  | .unknownLocal => .error (unknownLocalName name.asDotted)
  | .unknownGlobal => .error ⟨.unknownGlobalName, s!"unknown global name {name.asDotted}"⟩

def resolveIdent (locals : LocalScope) (name : MachineName)
    (universeArgs : Option (List MachineLevel)) (explicitMode : Bool) :
    MachineResult MachineTerm :=
  match localPart name universeArgs explicitMode with
  | some part =>
    if locals.contains part then .ok (.local part)
    else resolveGlobal globals universeParams name universeArgs explicitMode
  | none => resolveGlobal globals universeParams name universeArgs explicitMode

mutual

def resolveTerm (locals : LocalScope) : MachineTerm → MachineResult MachineTerm
  | .ident name universeArgs explicitMode =>
    resolveIdent globals universeParams locals name universeArgs explicitMode
  | .local name => .ok (.local name)
  | .prop => .ok .prop
  | .type level => do
    let level ← resolveLevel universeParams level
    .ok (.type level)
  | .sort level => do
    let level ← resolveLevel universeParams level
    .ok (.sort level)
  | .app func arg => do
    let func ← resolveTerm locals func
    let arg ← resolveTerm locals arg
    .ok (.app func arg)
  | .lam binders body => do
    let (binders, nestedLocals) ← resolveBinders locals binders
    let body ← resolveTerm nestedLocals body
    .ok (.lam binders body)
  | .pi binders body => do
    let (binders, nestedLocals) ← resolveBinders locals binders
    let body ← resolveTerm nestedLocals body
    .ok (.pi binders body)
  | .annot expr ty => do
    let expr ← resolveTerm locals expr
    let ty ← resolveTerm locals ty
    .ok (.annot expr ty)

/-- `resolve_binder`, with the scope it leaves. -/
def resolveBinder (locals : LocalScope) : MachineBinder → MachineResult (MachineBinder × LocalScope)
  | .mk name ty => do
    ensureLocalDoesNotShadowGlobal globals name
    let ty ← resolveTerm locals ty
    .ok (.mk name ty, locals.push name)

/-- The loop over a telescope, with the scope it leaves. -/
def resolveBinders (locals : LocalScope) :
    List MachineBinder → MachineResult (List MachineBinder × LocalScope)
  | [] => .ok ([], locals)
  | binder :: binders => do
    let (binder, locals) ← resolveBinder locals binder
    let (binders, locals) ← resolveBinders locals binders
    .ok (binder :: binders, locals)

end

end Terms

/-! ### Declarations and modules -/

def duplicateUniverseParam (name : String) : MachineDiagnostic :=
  ⟨.duplicateUniverseParam, s!"duplicate universe parameter {name}"⟩

/-- `resolve_universe_params`, with the names seen so far. -/
def resolveUniverseParams (seen : List String) : List MachineUniverseParam → MachineResult Unit
  | [] => .ok ()
  | param :: params => do
    Result.ensure (!seen.contains param.name) (duplicateUniverseParam param.name)
    resolveUniverseParams (param.name :: seen) params

def resolveDecl (globals : GlobalTable) (decl : MachineDecl) : MachineResult MachineDecl := do
  resolveUniverseParams [] decl.universeParams
  let universeParamNames := decl.universeParams.map MachineUniverseParam.name
  let (binders, locals) ← resolveBinders globals universeParamNames ⟨[]⟩ decl.binders
  let ty ← resolveTerm globals universeParamNames locals decl.ty
  let value ← resolveTerm globals universeParamNames locals decl.value
  .ok ⟨decl.name, decl.universeParams, binders, ty, value⟩

/-- The declaration of an item, if it is not an import. -/
def MachineItem.declaration : MachineItem → Option MachineDecl
  | .importModule _ => none
  | .defDecl definition => some definition.declaration
  | .theoremDecl decl => some decl

/-- `import_key`. -/
def VerifiedImport.key (verified : VerifiedImport) : Name × Hash × Option Hash :=
  (verified.module, verified.exportHash, verified.certificateHash)

/-- The first loop of `resolve_module`: each imported module once. -/
def addImports (verifiedImports : List VerifiedImport) (seenImports : List (Name × Hash × Option Hash))
    (globals : GlobalTable) : List MachineItem → MachineResult GlobalTable
  | [] => .ok globals
  | .importModule importName :: items => do
    let verified ← findVerifiedImport verifiedImports importName
    if verified.key ∈ seenImports then addImports verifiedImports seenImports globals items
    else do
      let globals ← globals.addImport verified
      addImports verifiedImports (verified.key :: seenImports) globals items
  | .defDecl _ :: items => addImports verifiedImports seenImports globals items
  | .theoremDecl _ :: items => addImports verifiedImports seenImports globals items

/-- The second loop: the roots of all declarations. -/
def addDeclRoots (globals : GlobalTable) (items : List MachineItem) : GlobalTable :=
  (items.filterMap MachineItem.declaration).foldl
    (fun globals decl => globals.addDeclRoot decl.name) globals

/-- The third loop, which resolves the declarations and adds their names. -/
def resolveItems (globals : GlobalTable) : List MachineItem → MachineResult (List MachineItem)
  | [] => .ok []
  | .importModule module :: items => do
    let items ← resolveItems globals items
    .ok (.importModule module :: items)
  | .defDecl definition :: items => do
    let resolved ← resolveDecl globals definition.declaration
    let globals ← globals.addLocalDecl resolved.name
    let items ← resolveItems globals items
    .ok (.defDecl ⟨resolved, definition.reducibility⟩ :: items)
  | .theoremDecl decl :: items => do
    let resolved ← resolveDecl globals decl
    let globals ← globals.addLocalDecl resolved.name
    let items ← resolveItems globals items
    .ok (.theoremDecl resolved :: items)

structure ResolvedMachineModule where
  module : MachineModule

def resolveMachineModule (module : MachineModule) (verifiedImports : List VerifiedImport) :
    MachineResult ResolvedMachineModule := do
  let globals ← addImports verifiedImports [] .empty module.items
  let items ← resolveItems (addDeclRoots globals module.items) module.items
  .ok ⟨⟨items⟩⟩

end NpaCore.Frontend
