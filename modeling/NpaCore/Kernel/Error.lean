import NpaCore.Syntax.Expr

/-!
# Kernel data and errors

The kernel's instance of the shared syntax, with constants, universe parameters
and binder display names all strings, and the errors of
`npa-kernel/src/error.rs`.
-/

namespace NpaCore.Kernel

abbrev Level := NpaCore.Level String

abbrev Expr := NpaCore.Expr String String String

/-- `UniverseConstraintRelation`, in its derived order. -/
inductive UniverseConstraintRelation where
  | le
  | eq
  deriving DecidableEq, Repr, Inhabited

structure UniverseConstraint where
  lhs : Level
  relation : UniverseConstraintRelation
  rhs : Level
  deriving DecidableEq, Repr, Inhabited

inductive ResourceLimitKind where
  | whnf
  | conversion
  | universeConstraints
  deriving DecidableEq, Repr

inductive Error where
  | unknownConstant (name : String)
  | unknownUniverseParam (name : String)
  | unresolvedUniverseMeta (name : String)
  | duplicateUniverseParam (name : String)
  | nonCanonicalUniverseParams (params : List String)
  | nonCanonicalUniverseLevel (level : Level)
  | nonCanonicalUniverseConstraints
  | duplicateUniverseConstraint
  | unsupportedUniverseConstraint (constraint : UniverseConstraint)
  | unsatisfiableUniverseConstraints
  | universeConstraintViolation (declaration : String) (constraint : UniverseConstraint)
  | badUniverseArity (name : String) (expected actual : Nat)
  | invalidBVar (index : Nat)
  | expectedSort (actual : Expr)
  | expectedPi (actual : Expr)
  | typeMismatch (expected actual : Expr)
  | notDefEq (lhs rhs : Expr)
  | invalidDeclarationName (name : String)
  | duplicateDecl (name : String)
  | invalidInductive (message : String)
  | nonPositiveOccurrence (inductiveName constructor : String) (ty : Expr)
  | badConstructorResult (inductiveName constructor : String) (result : Expr)
  | constructorUniverseBoundViolation (inductiveName constructor : String) (fieldIndex : Nat)
      (fieldLevel inductiveSort : Level)
  | resourceLimit (kind : ResourceLimitKind)
  deriving DecidableEq, Repr

abbrev Result (α : Type) := Except Error α

/-! ### The shared operations with the kernel's errors -/

namespace Expr

def shift (e : Expr) (amount : Int) (cutoff : Nat) : Result Expr :=
  NpaCore.Expr.shift Error.invalidBVar e amount cutoff

def instantiate (body value : Expr) : Result Expr :=
  NpaCore.Expr.instantiate Error.invalidBVar body value

end Expr

/-! ### Local contexts -/

/-- `Ctx` of `context.rs`: the types of the local assumptions, outermost first.
    The name an assumption is pushed with is not kept. -/
structure Ctx where
  locals : List Expr
  deriving DecidableEq, Repr

namespace Ctx

def new : Ctx := ⟨[]⟩

def pushAssumption (ctx : Ctx) (ty : Expr) : Ctx := ⟨ctx.locals ++ [ty]⟩

/-- `lookup`: index `0` is the assumption pushed last. -/
def lookup (ctx : Ctx) (index : Nat) : Result Expr :=
  Result.okOr (if index < ctx.locals.length then ctx.locals[ctx.locals.length - 1 - index]? else none)
    (.invalidBVar index)

/-- `lookup_type`: the type of an assumption, moved into the whole context. -/
def lookupType (ctx : Ctx) (index : Nat) : Result Expr := do
  let ty ← ctx.lookup index
  Expr.shift ty (NpaCore.Expr.asI32 index + 1) 0

def ensureBound (ctx : Ctx) (index : Nat) : Result Unit := do
  let _ ← ctx.lookup index
  .ok ()

end Ctx

end NpaCore.Kernel
