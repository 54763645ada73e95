import NpaCore.Syntax.Substitution
import NpaCore.Kernel.UniverseSoundness
import NpaCore.Kernel.Whnf

/-!
# The declarative relations

Conversion and typing as the kernel is meant to decide them, relative to the
declarations of an environment. Conversion is the least congruence that contains
beta, delta, iota and equality of levels under every valuation; it does not ask
for types. In the iota rule the index arguments of a recursive call, which the
constructor's telescope states over the universe parameters of the declaration,
are taken at the levels of the recursor. Substitution is the total operation on
terms with indices of any size, not the one of `subst.rs`.
-/

namespace NpaCore.Kernel

open NpaCore.Expr NpaCore.Level

/-! ### Iota -/

/-- A family that a recursive field of `inductiveName` may belong to, with its recursor:
    the inductive itself, or a family of its block. -/
def FamilyRecursor (env : Env) (inductiveName recursorName : String) (data : InductiveDecl)
    (familyRecursor : String) : Prop :=
  match env.mutualGroup inductiveName with
  | none => env.inductiveData inductiveName = .ok data ∧ familyRecursor = recursorName
  | some group => ∃ family ∈ group.inductives, env.inductiveData family = .ok data ∧
      group.recursors.lookup family = some familyRecursor

/-- A family that the fields of `inductiveName` are compared with. -/
def FieldFamily (env : Env) (inductiveName : String) (data : InductiveDecl) : Prop :=
  match env.mutualGroup inductiveName with
  | none => env.inductiveData inductiveName = .ok data
  | some group => ∃ family ∈ group.inductives, env.inductiveData family = .ok data

/-- The recursor of one iota step with its arguments before the indices, and the arguments
    of the constructor. -/
structure IotaSpine where
  inductiveName : String
  recursorName : String
  universeParams : List String
  levels : List Level
  prefixArgs : List Expr
  constructorArgs : List Expr

/-- The index arguments of a recursive call, at the levels of the recursor and with the
    arguments of the constructor in place of its telescope before the field. -/
def IotaSpine.instances (spine : IotaSpine) (ctxLen : Nat) (indices : List Expr) : List Expr :=
  indices.map fun index =>
    (index.substLevelsExpr spine.universeParams spine.levels).instTelescope
      (spine.constructorArgs.take ctxLen) 0

/-- What the minor premise is applied to for one field: the field, and for a recursive
    field also the recursive call. -/
inductive IotaField (env : Env) (spine : IotaSpine) (domain field : Expr) (ctxLen : Nat) :
    List Expr → Prop
  | plain (h : ∀ data, FieldFamily env spine.inductiveName data →
      ∀ indices, directRecursiveIndexArgs data domain ctxLen ≠ .ok indices) :
      IotaField env spine domain field ctxLen [field]
  | recursive {data recursorName indices}
      (family : FamilyRecursor env spine.inductiveName spine.recursorName data recursorName)
      (occurrence : directRecursiveIndexArgs data domain ctxLen = .ok indices) :
      IotaField env spine domain field ctxLen
        [field, apps (.const recursorName spine.levels)
          (spine.prefixArgs ++ spine.instances ctxLen indices ++ [field])]

/-- The arguments of the minor premise for all fields, from the one at `ctxLen` on. -/
inductive IotaFields (env : Env) (spine : IotaSpine) : Nat → List (Expr × Expr) → List Expr → Prop
  | nil {ctxLen} : IotaFields env spine ctxLen [] []
  | cons {ctxLen field domain rest first others}
      (head : IotaField env spine domain field ctxLen first)
      (tail : IotaFields env spine (ctxLen + 1) rest others) :
      IotaFields env spine ctxLen ((field, domain) :: rest) (first ++ others)

/-- A recursor applied to a constructor of its inductive. The constructor has arguments for
    its parameters and fields; a typed term has no further ones. -/
inductive Iota (env : Env) : Expr → Expr → Prop
  | intro {recursorName inductiveName : String} {universeParams : List String}
      {declName : String} {ty : Expr} {rules : RecursorRules} {levels constructorLevels : List Level}
      {data : InductiveDecl} {constructor : ConstructorDecl} {constructorIndex offset : Nat}
      {args constructorArgs minorArgs : List Expr} {minor : Expr}
      (recursor : env.decl recursorName =
        some (.recursorDecl declName universeParams ty inductiveName rules))
      (family : env.inductiveData inductiveName = .ok data)
      (owned : data.constructors[constructorIndex]? = some constructor)
      (major : args[rules.majorIndex]? =
        some (apps (.const constructor.name constructorLevels) constructorArgs))
      (position : blockConstructorOffset env (env.mutualGroup inductiveName) inductiveName =
        .ok offset)
      (premise : args[rules.minorStart + offset + constructorIndex]? = some minor)
      (params : data.params.length ≤ constructorArgs.length)
      (saturated : (constructor.ty.peelPiDomains.1.drop data.params.length).length ≤
        (constructorArgs.drop data.params.length).length)
      (fields : IotaFields env
        ⟨inductiveName, recursorName, universeParams, levels,
          args.take (rules.majorIndex - data.indices.length), constructorArgs⟩
        data.params.length
        ((constructorArgs.drop data.params.length).zip
          (constructor.ty.peelPiDomains.1.drop data.params.length)) minorArgs) :
      Iota env (apps (.const recursorName levels) args)
        (apps (apps minor minorArgs) (args.drop (rules.majorIndex + 1)))

/-! ### Conversion -/

/-- Levels with the same value under every valuation. -/
def LevelEquiv (lhs rhs : Level) : Prop := ∀ ρ, lhs.eval ρ = rhs.eval ρ

inductive Conv (env : Env) : Expr → Expr → Prop
  | refl (e) : Conv env e e
  | symm {a b} (h : Conv env a b) : Conv env b a
  | trans {a b c} (hab : Conv env a b) (hbc : Conv env b c) : Conv env a c
  | sort {lhs rhs} (h : LevelEquiv lhs rhs) : Conv env (.sort lhs) (.sort rhs)
  | const {name lhs rhs} (h : List.Forall₂ LevelEquiv lhs rhs) :
      Conv env (.const name lhs) (.const name rhs)
  | app {f f' a a'} (hf : Conv env f f') (ha : Conv env a a') :
      Conv env (.app f a) (.app f' a')
  | lam {binder binder' ty ty' body body'} (hty : Conv env ty ty')
      (hbody : Conv env body body') : Conv env (.lam binder ty body) (.lam binder' ty' body')
  | pi {binder binder' ty ty' body body'} (hty : Conv env ty ty')
      (hbody : Conv env body body') : Conv env (.pi binder ty body) (.pi binder' ty' body')
  | beta {binder ty body arg} : Conv env (.app (.lam binder ty body) arg) (body.instVar arg)
  | delta {name declName universeParams constraints ty value levels}
      (h : env.decl name =
        some (.defDecl declName universeParams constraints ty value .reducible)) :
      Conv env (.const name levels) (value.substLevelsExpr universeParams levels)
  | iota {lhs rhs} (h : Iota env lhs rhs) : Conv env lhs rhs

/-! ### Typing -/

/-- The parameters of the level are parameters of the context. -/
def LevelOver (params : List String) (level : Level) : Prop := ∀ p ∈ level.params, p ∈ params

/-- The constraints that an environment attaches to a declaration hold at the levels, under
    every valuation of the context's parameters that satisfies the context's constraints. -/
def ConstraintsHold (env : Env) (universeContext : UniverseContext) (decl : Decl)
    (levels : List Level) : Prop :=
  ∃ params constraints, env.declConstraintContext decl = .ok (params, constraints) ∧
    ∀ ρ, Satisfies ρ universeContext.constraints →
      Satisfies (substValuation decl.universeParams levels ρ) constraints

inductive HasType (env : Env) (universeContext : UniverseContext) : Ctx → Expr → Expr → Prop
  | sort {ctx level} (h : LevelOver universeContext.params level) :
      HasType env universeContext ctx (.sort level) (.sort (.succ level))
  | bvar {ctx index ty} (h : ctx.lookup index = .ok ty) :
      HasType env universeContext ctx (.bvar index) (ty.lift (index + 1) 0)
  | const {ctx name decl levels} (declared : env.decl name = some decl)
      (arity : decl.universeParams.length = levels.length)
      (wellFormed : ∀ level ∈ levels, LevelOver universeContext.params level)
      (constraints : ConstraintsHold env universeContext decl levels) :
      HasType env universeContext ctx (.const name levels)
        (decl.ty.substLevelsExpr decl.universeParams levels)
  | pi {ctx binder ty body u v} (domain : HasType env universeContext ctx ty (.sort u))
      (codomain : HasType env universeContext (ctx.pushAssumption ty) body (.sort v)) :
      HasType env universeContext ctx (.pi binder ty body) (.sort (.imax u v))
  | lam {ctx binder ty body bodyTy u} (domain : HasType env universeContext ctx ty (.sort u))
      (codomain : HasType env universeContext (ctx.pushAssumption ty) body bodyTy) :
      HasType env universeContext ctx (.lam binder ty body) (.pi binder ty bodyTy)
  | app {ctx fn arg binder ty body}
      (function : HasType env universeContext ctx fn (.pi binder ty body))
      (argument : HasType env universeContext ctx arg ty) :
      HasType env universeContext ctx (.app fn arg) (body.instVar arg)
  | conv {ctx e ty ty'} (typed : HasType env universeContext ctx e ty) (h : Conv env ty ty') :
      HasType env universeContext ctx e ty'

/-! ### Congruence of application spines -/

namespace Conv

variable {env : Env}

theorem apps_congr {fn fn' : Expr} (hfn : Conv env fn fn') {args args' : List Expr}
    (h : List.Forall₂ (Conv env) args args') :
    Conv env (NpaCore.Expr.apps fn args) (NpaCore.Expr.apps fn' args') := by
  induction h generalizing fn fn' with
  | nil => exact hfn
  | cons head _ ih => exact ih (.app hfn head)

theorem forall₂_refl (args : List Expr) : List.Forall₂ (Conv env) args args :=
  List.forall₂_same.mpr fun a _ => .refl a

/-- One argument of a spine may be replaced by a convertible one. -/
theorem apps_set (fn : Expr) {args : List Expr} {index : Nat} {old new : Expr}
    (hold : args[index]? = some old) (h : Conv env old new) :
    Conv env (NpaCore.Expr.apps fn args) (NpaCore.Expr.apps fn (args.set index new)) := by
  refine apps_congr (.refl fn) ?_
  induction args generalizing index with
  | nil => cases hold
  | cons first rest ih =>
    cases index with
    | zero =>
      cases hold
      exact .cons h (forall₂_refl rest)
    | succ index => exact .cons (.refl first) (ih (by simpa using hold))

end Conv

end NpaCore.Kernel
