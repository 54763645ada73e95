import Mathlib.Data.List.Infix
import NpaCore.Certificate.Module
import NpaCore.Kernel.Admission

/-!
# From certificates to kernel declarations

The functions of `npa-cert/src/kernel.rs`: references become the dotted names of
the flat kernel environment, declarations and export entries become kernel
declarations, and the builtin declarations are added on demand. The sharing table
for terms gives the same expressions as the plain recursion, so only the latter
is modelled.
-/

namespace NpaCore.Certificate

open NpaCore.Kernel (Env Allocator RecursorRules Decl InductiveDecl MutualInductiveBlock
  ConstructorDecl RecursorDecl Binder Reducibility UniverseConstraint)

/-! ### Names and terms -/

/-- `level_from_node`, which normalises every `max` and `imax` it builds. -/
def levelFromNode : Kernel.Level → Kernel.Level
  | .zero => .zero
  | .succ inner => .succ (levelFromNode inner)
  | .max lhs rhs => NpaCore.Level.mkMax (levelFromNode lhs) (levelFromNode rhs)
  | .imax lhs rhs => NpaCore.Level.mkIMax (levelFromNode lhs) (levelFromNode rhs)
  | .param name => .param name

def universeConstraintsFromSpecs (constraints : List UniverseConstraint) :
    List UniverseConstraint :=
  constraints.map fun constraint =>
    ⟨levelFromNode constraint.lhs, constraint.relation, levelFromNode constraint.rhs⟩

namespace ModuleCert

variable (cert : ModuleCert)

def declName (declIndex : Nat) : CertResult String :=
  Result.okOr (cert.declarations[declIndex]?.map (·.decl.primaryName)) .decodeError

def globalRefName : GlobalRef → CertResult String
  | .builtin name _ | .imported _ name _ | .localGenerated _ name => .ok name
  | .local declIndex => cert.declName declIndex

def exprFromTerm : Term → CertResult Kernel.Expr
  | .sort level => .ok (.sort (levelFromNode level))
  | .bvar index => .ok (.bvar index)
  | .const ref levels => do
    let name ← cert.globalRefName ref
    .ok (.const name (levels.map levelFromNode))
  | .app fn arg => do
    let fn ← exprFromTerm fn
    let arg ← exprFromTerm arg
    .ok (.app fn arg)
  | .lam _ ty body => do
    let ty ← exprFromTerm ty
    let body ← exprFromTerm body
    .ok (.lam "_" ty body)
  | .pi _ ty body => do
    let ty ← exprFromTerm ty
    let body ← exprFromTerm body
    .ok (.pi "_" ty body)

end ModuleCert

/-! ### Declarations -/

/-- What the conversion produces. The source uses `Decl` here too; the constructors and
    recursors that it could hold are never produced. -/
inductive KernelDecl where
  | axiomDecl (name : String) (universeParams : List String)
      (universeConstraints : List UniverseConstraint) (ty : Kernel.Expr)
  | defDecl (name : String) (universeParams : List String)
      (universeConstraints : List UniverseConstraint) (ty value : Kernel.Expr)
      (reducibility : Reducibility)
  | theoremDecl (name : String) (universeParams : List String)
      (universeConstraints : List UniverseConstraint) (ty proof : Kernel.Expr)
  | inductiveData (data : InductiveDecl)
  | mutualBlock (block : MutualInductiveBlock)
  deriving DecidableEq, Repr

/-- `Decl::name`; for a block the name of the block. -/
def KernelDecl.name : KernelDecl → String
  | axiomDecl name .. | defDecl name .. | theoremDecl name .. => name
  | inductiveData data => data.name
  | mutualBlock block => block.name

namespace ModuleCert

variable (cert : ModuleCert)

/-- The binders of a telescope, named by the given function of the position. -/
def bindersFromTerms (binderName : Nat → String) (terms : List Term) : CertResult (List Binder) :=
  Result.collect terms.zipIdx fun (term, index) => do
    let ty ← cert.exprFromTerm term
    .ok ⟨binderName index, ty⟩

def recursorFromSpec : Option RecursorSpec → CertResult (Option RecursorDecl)
  | none => .ok none
  | some recursor => do
    let ty ← cert.exprFromTerm recursor.ty
    .ok (some ⟨recursor.name, recursor.universeParams, ty, some recursor.rules⟩)

/-- The two outer binders of a type are renamed to `A` and `x`. -/
def nameReflBinders : Kernel.Expr → Kernel.Expr
  | .pi _ ty (.pi _ ty' body) => .pi "A" ty (.pi "x" ty' body)
  | .pi _ ty body => .pi "A" ty body
  | e => e

/-- The display names that only a single inductive called `Eq` gets. -/
def paramBinderName (isEq : Bool) (index : Nat) : String :=
  if isEq && index == 0 then "A"
  else if isEq && index == 1 then "lhs"
  else "p" ++ toString index

def indexBinderName (isEq : Bool) (index : Nat) : String :=
  if isEq && index == 0 then "rhs" else "i" ++ toString index

def constructorFromSpec (isEq : Bool) (constructor : ConstructorSpec) :
    CertResult ConstructorDecl := do
  let ty ← cert.exprFromTerm constructor.ty
  .ok ⟨constructor.name, if isEq && constructor.name == "Eq.refl" then nameReflBinders ty else ty⟩

def inductiveFromSpec (isEq : Bool) (universeParams : List String)
    (universeConstraints : List UniverseConstraint) (spec : InductiveSpec) :
    CertResult InductiveDecl := do
  let params ← cert.bindersFromTerms (paramBinderName isEq) spec.params
  let indices ← cert.bindersFromTerms (indexBinderName isEq) spec.indices
  let constructors ← Result.collect spec.constructors (cert.constructorFromSpec isEq)
  let recursor ← cert.recursorFromSpec spec.recursor
  .ok
    { name := spec.name
      universeParams
      universeConstraints
      params
      indices
      sort := levelFromNode spec.sort
      constructors
      recursor }

def declPayloadToKernelDecl : DeclPayload → CertResult KernelDecl
  | .axiomDecl name universeParams universeConstraints ty => do
    let ty ← cert.exprFromTerm ty
    .ok (.axiomDecl name universeParams (universeConstraintsFromSpecs universeConstraints) ty)
  | .defDecl name universeParams universeConstraints ty value reducibility => do
    let ty ← cert.exprFromTerm ty
    let value ← cert.exprFromTerm value
    .ok (.defDecl name universeParams (universeConstraintsFromSpecs universeConstraints) ty value
      reducibility)
  | .theoremDecl name universeParams universeConstraints ty proof => do
    let ty ← cert.exprFromTerm ty
    let proof ← cert.exprFromTerm proof
    .ok (.theoremDecl name universeParams (universeConstraintsFromSpecs universeConstraints) ty
      proof)
  | .inductiveDecl universeParams universeConstraints spec => do
    let data ← cert.inductiveFromSpec (spec.name == "Eq") universeParams
      (universeConstraintsFromSpecs universeConstraints) spec
    .ok (.inductiveData data)
  | .mutualInductiveBlock name universeParams universeConstraints specs => do
    -- the constraints belong to the block, and its families have none of their own
    let inductives ← Result.collect specs (cert.inductiveFromSpec false universeParams [])
    .ok (.mutualBlock
      { name
        universeParams
        universeConstraints := universeConstraintsFromSpecs universeConstraints
        inductives })

/-! ### Exports -/

/-- `source_decl_index_for_name`, also `source_decl_index_for_export_entry` at the name of the
    entry. -/
def sourceDeclIndexForName (name : String) : CertResult Nat :=
  Result.okOr (cert.declarations.findIdx? fun decl => decl.decl.exportsName name) .decodeError

/-- `normalize_builtin_import_decl`. -/
def normalizeBuiltinImportDecl : KernelDecl → KernelDecl
  | .inductiveData data =>
    .inductiveData (if data.name = "Eq" then { data with recursor := none } else data)
  | decl => decl

/-- The declaration of an importing module for an entry: theorems and opaque definitions
    are axioms there. -/
def certificateImportExportEntryToKernelDecl (entry : ExportEntry) : CertResult KernelDecl :=
  match entry.kind with
  | .axiomExport | .theoremExport => do
    let ty ← cert.exprFromTerm entry.ty
    .ok (.axiomDecl entry.name entry.universeParams
      (universeConstraintsFromSpecs entry.universeConstraints) ty)
  | .defExport => do
    let ty ← cert.exprFromTerm entry.ty
    match ← Result.okOr entry.reducibility .decodeError with
    | .reducible => do
      let body ← Result.okOr entry.body .decodeError
      let value ← cert.exprFromTerm body
      .ok (.defDecl entry.name entry.universeParams
        (universeConstraintsFromSpecs entry.universeConstraints) ty value .reducible)
    | .opaqueDef =>
      .ok (.axiomDecl entry.name entry.universeParams
        (universeConstraintsFromSpecs entry.universeConstraints) ty)
  | .inductiveExport | .constructorExport | .recursorExport => do
    let declIndex ← cert.sourceDeclIndexForName entry.name
    let decl ← Result.okOr cert.declarations[declIndex]? .decodeError
    let kernelDecl ← cert.declPayloadToKernelDecl decl.decl
    .ok (normalizeBuiltinImportDecl kernelDecl)

end ModuleCert

/-! ### Adding declarations -/

/-- `?` on a kernel result. -/
def fromKernel {α : Type} (result : Kernel.Result α) : CertResult α :=
  match result with
  | .ok value => .ok value
  | .error error => .error (.kernel error)

/-- The errors of an inductive declaration that mention its recursor are reported apart. -/
def fromInductive {α : Type} (name : String) (result : Kernel.Result α) : CertResult α :=
  match result with
  | .ok value => .ok value
  | .error (.invalidInductive message) =>
    if "recursor".toList <:+: message.toList then
      .error (.inductiveGeneratedArtifactMismatch name)
    else .error (.kernel (.invalidInductive message))
  | .error error => .error (.kernel error)

@[simp] theorem fromKernel_eq_ok {α : Type} {result : Kernel.Result α} {value : α} :
    fromKernel result = .ok value ↔ result = .ok value := by
  cases result <;> simp [fromKernel]

@[simp] theorem fromInductive_eq_ok {α : Type} {name : String} {result : Kernel.Result α}
    {value : α} : fromInductive name result = .ok value ↔ result = .ok value := by
  cases result with
  | ok found =>
    have kept : fromInductive name (.ok found) = .ok found := rfl
    rw [kept, Except.ok.injEq, Except.ok.injEq]
  | error error =>
    simp only [reduceCtorEq, iff_false]
    intro h
    unfold fromInductive at h
    split at h
    next same => cases same
    next =>
      split at h
      next => cases h
      next => cases h
    next => cases h

section Env

variable (alloc : Allocator)

def addDeclToEnv (env : Env) : KernelDecl → CertResult Env
  | .axiomDecl name universeParams universeConstraints ty =>
    fromKernel
      (env.addAxiomWithUniverseConstraints alloc name universeParams universeConstraints ty)
  | .defDecl name universeParams universeConstraints ty value reducibility =>
    fromKernel (env.addDefWithUniverseConstraints alloc name universeParams universeConstraints ty
      value reducibility)
  | .theoremDecl name universeParams universeConstraints ty proof =>
    fromKernel (env.addTheoremWithUniverseConstraints alloc name universeParams
      universeConstraints ty proof)
  | .inductiveData data => fromInductive data.name (env.addInductive alloc data)
  | .mutualBlock block => fromInductive block.name (env.addMutualInductive alloc block)

/-- `expose_checked_opaque_definition`: the body of an opaque definition becomes visible. -/
def exposeCheckedOpaqueDefinition (env : Env) (name : String) : Option Env :=
  match env.decl name with
  | some (.defDecl declName universeParams universeConstraints ty value .opaqueDef) =>
    some (env.insertDecl name
      (.defDecl declName universeParams universeConstraints ty value .reducible))
  | _ => none

def addCurrentModuleDeclToEnv (env : Env) (decl : KernelDecl) : CertResult Env := do
  let next ← addDeclToEnv alloc env decl
  match decl with
  | .defDecl name _ _ _ _ .opaqueDef =>
    Result.okOr (exposeCheckedOpaqueDefinition next name) .decodeError
  | _ => .ok next

end Env

/-! ### Builtins -/

/-- `builtin_decl_interface_hash`: SHA-256 over the domain `NPA-BUILTIN-INTERFACE-0.1` and the
    tag of the declaration. -/
def builtinDeclInterfaceHash (name : String) : Option Hash :=
  if name = "Nat" then
    some "71a590af44c7ad9e8bb7f4d0d0a613394c1590eae94edb50064320dd4bfb5d31"
  else if name = "Nat.zero" then
    some "d8996d856f8db276d0f52f128fd1ef1a4322d627325dd3909c53b29244608bfc"
  else if name = "Nat.succ" then
    some "5b2675dd6dc4c50943be1d16d480675702fe134c3d4b7d18422f09d4860c0703"
  else if name = "Nat.rec" then
    some "119f9efc21db65cd1693471e7c525db24714872917711a4b2b3cedb4073ef4b1"
  else if name = "Eq" then
    some "aa0ef8cb956900320ad9216d29284d088ec7cb3b09e13e5bd107d54df161cb72"
  else if name = "Eq.refl" then
    some "d14d28fd2083963fd80e427e5fead99b8c310d530e7356aa9184c736e80559e8"
  else if name = "Eq.rec" then
    some "400a348c3bc0189f4e802038237dd92ce82ee53790aea54fcf8834adcd30d7b3"
  else none

def isBuiltinName (name : String) : Bool := (builtinDeclInterfaceHash name).isSome

def builtinIsAxiom (name : String) : Bool := name = "Eq.rec"

def natExpr : Kernel.Expr := .const "Nat" []

/-- `nat_rec_type`. -/
def natRecType (level : Kernel.Level) : Kernel.Expr :=
  .pi "motive" (.pi "_" natExpr (.sort level))
    (.pi "z" (.app (.bvar 0) (.const "Nat.zero" []))
      (.pi "s"
        (.pi "n" natExpr
          (.pi "ih" (.app (.bvar 2) (.bvar 0))
            (.app (.bvar 3) (.app (.const "Nat.succ" []) (.bvar 1)))))
        (.pi "n" natExpr (.app (.bvar 3) (.bvar 0)))))

def natInductive : InductiveDecl where
  name := "Nat"
  universeParams := []
  universeConstraints := []
  params := []
  indices := []
  sort := .succ .zero
  constructors := [⟨"Nat.zero", natExpr⟩, ⟨"Nat.succ", .pi "_" natExpr natExpr⟩]
  recursor := some ⟨"Nat.rec", ["u"], natRecType (.param "u"), none⟩

def eqExpr (level : Kernel.Level) (ty lhs rhs : Kernel.Expr) : Kernel.Expr :=
  .app (.app (.app (.const "Eq" [level]) ty) lhs) rhs

def eqReflType (level : Kernel.Level) : Kernel.Expr :=
  .pi "A" (.sort level) (.pi "x" (.bvar 0) (eqExpr level (.bvar 1) (.bvar 0) (.bvar 0)))

def eqInductive : InductiveDecl where
  name := "Eq"
  universeParams := ["u"]
  universeConstraints := []
  params := [⟨"A", .sort (.param "u")⟩, ⟨"lhs", .bvar 0⟩]
  indices := [⟨"rhs", .bvar 1⟩]
  sort := .zero
  constructors := [⟨"Eq.refl", eqReflType (.param "u")⟩]
  recursor := none

/-- `eq_rec_type`. -/
def eqRecType (valueLevel motiveLevel : Kernel.Level) : Kernel.Expr :=
  .pi "A" (.sort valueLevel)
    (.pi "a" (.bvar 0)
      (.pi "motive"
        (.pi "b" (.bvar 1)
          (.pi "h" (eqExpr valueLevel (.bvar 2) (.bvar 1) (.bvar 0)) (.sort motiveLevel)))
        (.pi "minor"
          (.app (.app (.bvar 0) (.bvar 1))
            (.app (.app (.const "Eq.refl" [valueLevel]) (.bvar 2)) (.bvar 1)))
          (.pi "b" (.bvar 3)
            (.pi "h" (eqExpr valueLevel (.bvar 4) (.bvar 3) (.bvar 0))
              (.app (.app (.bvar 3) (.bvar 1)) (.bvar 0)))))))

def eqRecAxiom : KernelDecl :=
  .axiomDecl "Eq.rec" ["u", "v"] [] (eqRecType (.param "u") (.param "v"))

/-- The builtin declarations that a set of referenced builtin names asks for, in the order in
    which `add_referenced_builtins_to_env` adds them. -/
def referencedBuiltins (referenced : List String) : List KernelDecl :=
  (if referenced.any fun name => ["Nat", "Nat.zero", "Nat.succ", "Nat.rec"].contains name then
    [.inductiveData natInductive] else []) ++
  (if referenced.any fun name => ["Eq", "Eq.refl", "Eq.rec"].contains name then
    [.inductiveData eqInductive] else []) ++
  (if referenced.contains "Eq.rec" then [eqRecAxiom] else [])

section Env

variable (alloc : Allocator)

/-- A builtin is added unless its name is already declared, by whichever declaration. -/
def addBuiltinDecl (env : Env) (decl : KernelDecl) : CertResult Env :=
  if (env.decl decl.name).isNone then
    match decl with
    | .inductiveData data => fromKernel (env.addInductive alloc data)
    | decl => addDeclToEnv alloc env decl
  else .ok env

def addReferencedBuiltinsToEnv (env : Env) (referenced : List String) : CertResult Env :=
  Result.foldEach (referencedBuiltins referenced) env (addBuiltinDecl alloc)

def addBuiltinRefToEnv (env : Env) (name : String) (declInterfaceHash : Hash) :
    CertResult Env := do
  Result.ensure (builtinDeclInterfaceHash name = some declInterfaceHash) (.unknownDependency name)
  addReferencedBuiltinsToEnv alloc env [name]

end Env

end NpaCore.Certificate
