import NpaCore.Syntax.Positivity
import NpaCore.Kernel.Inductive

/-!
# Positivity of constructor fields

The positivity checks of `env.rs`, for a single inductive and for a mutual block,
and the approved nested functors of `positivity.rs` with the declarations they
must have.
-/

namespace NpaCore.Kernel

open NpaCore.Expr NpaCore.Level

/-! ### Approved nested functors -/

structure ApprovedNestedFunctor where
  name : String
  arity : Nat
  positiveArgs : List Nat
  deriving DecidableEq, Repr

def approvedNestedFunctors : List ApprovedNestedFunctor :=
  [⟨"List", 1, [0]⟩, ⟨"Option", 1, [0]⟩, ⟨"Prod", 2, [0, 1]⟩]

def approvedNestedFunctor (name : String) (arity : Nat) : Option ApprovedNestedFunctor :=
  approvedNestedFunctors.find? fun functor => functor.name = name && functor.arity = arity

/-- The test the approved declarations share: one universe parameter `u`, the given number
    of parameters of type `Sort u`, no indices, `Sort u` as the sort, and the constructors
    with their types up to binder names. -/
def approvedDecl (name : String) (paramCount : Nat)
    (constructors : Level → List (String × Expr)) (data : InductiveDecl) : Bool :=
  match data.universeParams with
  | [universeParam] =>
    let u : Level := .param universeParam
    data.name = name && data.universeConstraints.isEmpty && data.params.length == paramCount
      && data.indices.isEmpty && data.constructors.length == (constructors u).length
      && data.params.all (fun binder => binder.ty = .sort u) && levelEq data.sort u
      && (data.constructors.zip (constructors u)).all fun (constructor, expected) =>
        constructor.name = expected.1
          && exprEqIgnoringBinderNames constructor.ty expected.2
  | _ => false

def listConstructors (u : Level) : List (String × Expr) :=
  let list (a : Expr) : Expr := .app (.const "List" [u]) a
  [("List.nil", .pi "A" (.sort u) (list (.bvar 0))),
    ("List.cons",
      .pi "A" (.sort u) (.pi "x" (.bvar 0) (.pi "xs" (list (.bvar 1)) (list (.bvar 2)))))]

def optionConstructors (u : Level) : List (String × Expr) :=
  let option (a : Expr) : Expr := .app (.const "Option" [u]) a
  [("Option.none", .pi "A" (.sort u) (option (.bvar 0))),
    ("Option.some", .pi "A" (.sort u) (.pi "value" (.bvar 0) (option (.bvar 1))))]

def prodConstructors (u : Level) : List (String × Expr) :=
  let prod (a b : Expr) : Expr := apps (.const "Prod" [u]) [a, b]
  [("Prod.mk",
    .pi "A" (.sort u) (.pi "B" (.sort u)
      (.pi "fst" (.bvar 1) (.pi "snd" (.bvar 1) (prod (.bvar 3) (.bvar 2))))))]

def approvedListDecl : InductiveDecl → Bool := approvedDecl "List" 1 listConstructors

def approvedOptionDecl : InductiveDecl → Bool := approvedDecl "Option" 1 optionConstructors

def approvedProdDecl : InductiveDecl → Bool := approvedDecl "Prod" 2 prodConstructors

/-- The declaration has the exact form that the name and arity are approved for. -/
def approvedDeclAt (name : String) (arity : Nat) (data : InductiveDecl) : Bool :=
  match name, arity with
  | "List", 1 => approvedListDecl data
  | "Option", 1 => approvedOptionDecl data
  | "Prod", 2 => approvedProdDecl data
  | _, _ => false

def approvedNestedFunctorDeclIsValid (env : Env) (name : String) (arity : Nat) : Bool :=
  match env.decl name with
  | some (.inductiveDecl _ _ _ data) => approvedDeclAt name arity data
  | _ => false

/-- The positive arguments of a functor that the environment declares as approved. -/
def approvedPositiveArgs (env : Env) (name : String) (arity : Nat) : Option (List Nat) :=
  match approvedNestedFunctor name arity with
  | some functor =>
    if approvedNestedFunctorDeclIsValid env functor.name functor.arity then
      some functor.positiveArgs
    else none
  | none => none

/-! ### The checks -/

def singlePositivityRules (env : Env) (data : InductiveDecl) :
    PositivityRules String String String where
  direct domain ctxLen := isDirectRecursiveDomain data domain ctxLen
  members := [data.name]
  functor := approvedPositiveArgs env

def recursiveOccurrencesStrictlyPositive (env : Env) (data : InductiveDecl) (domain : Expr)
    (ctxLen : Nat) : Bool :=
  (singlePositivityRules env data).occurrencesStrictlyPositive domain ctxLen

def mutualPositivityRules (env : Env) (block : MutualInductiveBlock) :
    PositivityRules String String String where
  direct domain ctxLen := (directMutualRecursiveIndexArgsInBlock block domain ctxLen).isOk
  members := block.inductives.map (·.name)
  functor := approvedPositiveArgs env

def mutualRecursiveOccurrencesStrictlyPositive (env : Env) (block : MutualInductiveBlock)
    (domain : Expr) (ctxLen : Nat) : Bool :=
  (mutualPositivityRules env block).occurrencesStrictlyPositive domain ctxLen

def checkConstructorDomainPositive (env : Env) (data : InductiveDecl) (constructor : String)
    (domainIndex : Nat) (domain : Expr) : Result Unit :=
  let allowed := decide (data.params.length ≤ domainIndex)
    && recursiveOccurrencesStrictlyPositive env data domain domainIndex
  Result.ensure (allowed || !domain.containsConst data.name)
    (.nonPositiveOccurrence data.name constructor domain)

def checkMutualConstructorDomainPositive (env : Env) (block : MutualInductiveBlock)
    (data : InductiveDecl) (constructor : String) (domainIndex : Nat) (domain : Expr) :
    Result Unit :=
  let allowed := decide (data.params.length ≤ domainIndex)
    && mutualRecursiveOccurrencesStrictlyPositive env block domain domainIndex
  Result.ensure (allowed || !domain.containsAnyConst (block.inductives.map (·.name)))
    (.nonPositiveOccurrence data.name constructor domain)

end NpaCore.Kernel
