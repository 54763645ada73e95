import NpaCore.Kernel.Error

/-!
# Declarations and environments

The declarations of `decl.rs`, the canonical names of `name.rs` and the maps of
`Env`. A `BTreeMap` is a list of entries in which the entry added last shadows
the earlier ones; the counters and sinks of the source only observe a run and
are left out.
-/

namespace NpaCore.Kernel

inductive Reducibility where
  | reducible
  | opaqueDef
  deriving DecidableEq, Repr

structure Binder where
  name : String
  ty : Expr
  deriving DecidableEq, Repr

structure ConstructorDecl where
  name : String
  ty : Expr
  deriving DecidableEq, Repr

structure RecursorRules where
  minorStart : Nat
  majorIndex : Nat
  deriving DecidableEq, Repr

structure RecursorDecl where
  name : String
  universeParams : List String
  ty : Expr
  rules : Option RecursorRules
  deriving DecidableEq, Repr

structure InductiveDecl where
  name : String
  universeParams : List String
  universeConstraints : List UniverseConstraint
  params : List Binder
  indices : List Binder
  sort : Level
  constructors : List ConstructorDecl
  recursor : Option RecursorDecl
  deriving DecidableEq, Repr

structure MutualInductiveBlock where
  name : String
  universeParams : List String
  universeConstraints : List UniverseConstraint
  inductives : List InductiveDecl
  deriving DecidableEq, Repr

/-- The declarations an environment stores. The source's `Axiom` and `AxiomConstrained`
    are one constructor, whose constraints are empty in the first, and likewise for
    definitions and theorems. `Decl::MutualInductiveBlock` is never stored. -/
inductive Decl where
  | axiomDecl (name : String) (universeParams : List String)
      (universeConstraints : List UniverseConstraint) (ty : Expr)
  | defDecl (name : String) (universeParams : List String)
      (universeConstraints : List UniverseConstraint) (ty value : Expr)
      (reducibility : Reducibility)
  | theoremDecl (name : String) (universeParams : List String)
      (universeConstraints : List UniverseConstraint) (ty proof : Expr)
  | inductiveDecl (name : String) (universeParams : List String) (ty : Expr)
      (data : InductiveDecl)
  | constructorDecl (name : String) (universeParams : List String) (ty : Expr)
      (inductiveName : String)
  | recursorDecl (name : String) (universeParams : List String) (ty : Expr)
      (inductiveName : String) (rules : RecursorRules)
  deriving DecidableEq, Repr

namespace Decl

def name : Decl → String
  | axiomDecl name .. | defDecl name .. | theoremDecl name .. | inductiveDecl name ..
  | constructorDecl name .. | recursorDecl name .. => name

def universeParams : Decl → List String
  | axiomDecl _ params .. | defDecl _ params .. | theoremDecl _ params ..
  | inductiveDecl _ params .. | constructorDecl _ params .. | recursorDecl _ params .. => params

def universeConstraints : Decl → List UniverseConstraint
  | axiomDecl _ _ constraints _ | defDecl _ _ constraints .. | theoremDecl _ _ constraints .. =>
    constraints
  | inductiveDecl _ _ _ data => data.universeConstraints
  | constructorDecl .. | recursorDecl .. => []

def ty : Decl → Expr
  | axiomDecl _ _ _ ty | defDecl _ _ _ ty .. | theoremDecl _ _ _ ty _ | inductiveDecl _ _ ty _
  | constructorDecl _ _ ty _ | recursorDecl _ _ ty .. => ty

end Decl

/-! ### Canonical names -/

/-- The bytes are ASCII, so the source's bytes are the characters here. -/
def isNameComponentStart (c : Char) : Bool := c.isAlpha || c = '_'

def isNameComponentContinue (c : Char) : Bool := c.isAlphanum || c = '_' || c = Char.ofNat 39

def isCanonicalNameComponent : List Char → Bool
  | [] => false
  | first :: rest => isNameComponentStart first && rest.all isNameComponentContinue

/-- `name.split('.')`. -/
def splitDots : List Char → List (List Char)
  | [] => [[]]
  | c :: rest =>
    match splitDots rest with
    | [] => [[c]]
    | first :: others => if c = '.' then [] :: first :: others else (c :: first) :: others

def isCanonicalDottedName (name : String) : Bool :=
  !name.toList.isEmpty && (splitDots name.toList).all isCanonicalNameComponent

/-! ### Environments -/

/-- `KernelExecutionOptions`. -/
inductive KernelExecutionOptions where
  | memoOff
  | ephemeralMemo
  | repetitionProbe
  deriving DecidableEq, Repr

structure MutualGroupInfo where
  inductives : List String
  recursors : List (String × String)
  universeParams : List String
  universeConstraints : List UniverseConstraint
  deriving DecidableEq, Repr

structure Env where
  decls : List (String × Decl)
  mutualGroups : List (String × MutualGroupInfo)
  executionOptions : KernelExecutionOptions
  deriving DecidableEq, Repr

namespace Env

def withExecutionOptions (options : KernelExecutionOptions) : Env := ⟨[], [], options⟩

def new : Env := withExecutionOptions .memoOff

def decl (env : Env) (name : String) : Option Decl := env.decls.lookup name

/-- `mutual_groups.get`. -/
def mutualGroup (env : Env) (name : String) : Option MutualGroupInfo :=
  env.mutualGroups.lookup name

/-- `decls.insert`. -/
def insertDecl (env : Env) (name : String) (decl : Decl) : Env :=
  { env with decls := (name, decl) :: env.decls }

/-- `mutual_groups.insert`. -/
def insertGroup (env : Env) (group : MutualGroupInfo) (name : String) : Env :=
  { env with mutualGroups := (name, group) :: env.mutualGroups }

@[simp] theorem decl_insertDecl (env : Env) (name other : String) (decl : Decl) :
    (env.insertDecl name decl).decl other = if other = name then some decl else env.decl other := by
  by_cases same : other = name
  · simp [Env.decl, insertDecl, same]
  · simp [Env.decl, insertDecl, List.lookup_cons, same, beq_false_of_ne same]

@[simp] theorem mutualGroup_insertDecl (env : Env) (name other : String) (decl : Decl) :
    (env.insertDecl name decl).mutualGroup other = env.mutualGroup other := rfl

@[simp] theorem decl_insertGroup (env : Env) (name other : String) (group : MutualGroupInfo) :
    (env.insertGroup group name).decl other = env.decl other := rfl

@[simp] theorem mutualGroup_insertGroup (env : Env) (name other : String)
    (group : MutualGroupInfo) :
    (env.insertGroup group name).mutualGroup other =
      if other = name then some group else env.mutualGroup other := by
  by_cases same : other = name
  · simp [mutualGroup, insertGroup, same]
  · simp [mutualGroup, insertGroup, List.lookup_cons, same, beq_false_of_ne same]

def constructorBelongsTo (env : Env) (constructor inductiveName : String) : Bool :=
  match env.decl constructor with
  | some (.constructorDecl _ _ _ owner) => owner = inductiveName
  | _ => false

def inductiveData (env : Env) (name : String) : Result InductiveDecl :=
  match env.decl name with
  | some (.inductiveDecl _ _ _ data) => .ok data
  | _ => .error (.invalidInductive name)

def inductiveConstraintContext (env : Env) (inductiveName : String) :
    Result (List String × List UniverseConstraint) :=
  match env.mutualGroup inductiveName with
  | some group => .ok (group.universeParams, group.universeConstraints)
  | none =>
    match env.decl inductiveName with
    | some (.inductiveDecl _ _ _ data) => .ok (data.universeParams, data.universeConstraints)
    | _ => .error (.invalidInductive
        (inductiveName ++ " constraint context is missing its parent inductive"))

def declConstraintContext (env : Env) (decl : Decl) :
    Result (List String × List UniverseConstraint) :=
  match decl with
  | .inductiveDecl name .. => env.inductiveConstraintContext name
  | .constructorDecl _ _ _ inductiveName => env.inductiveConstraintContext inductiveName
  | .recursorDecl _ _ _ inductiveName _ => env.inductiveConstraintContext inductiveName
  | decl => .ok (decl.universeParams, decl.universeConstraints)

def ensureFresh (env : Env) (name : String) : Result Unit := do
  Result.ensure (isCanonicalDottedName name) (.invalidDeclarationName name)
  Result.ensure (env.decl name).isNone (.duplicateDecl name)

/-- The loop of the name checks over the names seen so far. -/
def ensureNamesFresh (env : Env) (seen : List String) : List String → Result Unit
  | [] => .ok ()
  | name :: rest => do
    Result.ensure (!seen.contains name) (.duplicateDecl name)
    env.ensureFresh name
    env.ensureNamesFresh (name :: seen) rest

def ensureInductiveNamesFresh (env : Env) (data : InductiveDecl) : Result Unit :=
  env.ensureNamesFresh []
    ([data.name] ++ data.constructors.map (·.name) ++ data.recursor.toList.map (·.name))

def ensureMutualInductiveNamesFresh (env : Env) (block : MutualInductiveBlock) : Result Unit :=
  env.ensureNamesFresh []
    ([block.name] ++ block.inductives.map (·.name) ++
      block.inductives.flatMap (fun data => data.constructors.map (·.name)) ++
      block.inductives.filterMap (fun data => data.recursor.map (·.name)))

end Env

end NpaCore.Kernel
