import Mathlib.Data.List.Induction
import NpaCore.Lib.Result
import NpaCore.Syntax.Level

/-!
# Core expressions

The expressions of `npa-kernel/src/expr.rs` and the operations on them of
`subst.rs`, over arbitrary types of constants, universe parameter names and
binder display names. The kernel names constants by strings and keeps display
names; the independent checkers name them by structured references and keep none.

The copy-on-write functions of the source return `None` for an unchanged part,
which their callers replace by the part itself; here they return the part.
-/

namespace NpaCore

/-- `Expr` of `expr.rs`. -/
inductive Expr (κ ν β : Type) where
  | sort (level : Level ν)
  | bvar (index : Nat)
  | const (name : κ) (levels : List (Level ν))
  | app (fn arg : Expr κ ν β)
  | lam (binder : β) (ty body : Expr κ ν β)
  | pi (binder : β) (ty body : Expr κ ν β)
  deriving DecidableEq, Repr, Inhabited

namespace Expr

variable {κ ν β ε : Type}

/-! ### Applications and telescopes -/

/-- `Expr::apps`. -/
def apps (fn : Expr κ ν β) (args : List (Expr κ ν β)) : Expr κ ν β := args.foldl app fn

/-- `collect_apps`: the head of an application and its arguments in order. -/
def collectApps : Expr κ ν β → Expr κ ν β × List (Expr κ ν β)
  | app fn arg => ((collectApps fn).1, (collectApps fn).2 ++ [arg])
  | e => (e, [])

/-- `peel_pi_domains`: the domains of the outer `Pi` telescope and what is under it. -/
def peelPiDomains : Expr κ ν β → List (Expr κ ν β) × Expr κ ν β
  | pi _ ty body => (ty :: (peelPiDomains body).1, (peelPiDomains body).2)
  | e => ([], e)

/-- `mk_pi_from_domains`, with the display name the source gives every binder. -/
def mkPiFromDomains (binder : β) (domains : List (Expr κ ν β)) (body : Expr κ ν β) :
    Expr κ ν β :=
  domains.foldr (pi binder) body

@[simp] theorem apps_nil (fn : Expr κ ν β) : apps fn [] = fn := rfl

theorem apps_append (fn : Expr κ ν β) (xs ys : List (Expr κ ν β)) :
    apps fn (xs ++ ys) = apps (apps fn xs) ys := List.foldl_append

@[simp] theorem apps_concat (fn : Expr κ ν β) (xs : List (Expr κ ν β)) (x : Expr κ ν β) :
    apps fn (xs ++ [x]) = app (apps fn xs) x := by
  rw [apps_append]
  rfl

theorem apps_collectApps (e : Expr κ ν β) : apps e.collectApps.1 e.collectApps.2 = e := by
  induction e with
  | app fn arg ih _ => rw [collectApps, apps_concat, ih]
  | _ => rfl

theorem collectApps_apps_const (name : κ) (levels : List (Level ν)) (args : List (Expr κ ν β)) :
    collectApps (apps (const name levels) args) = (const name levels, args) := by
  induction args using List.reverseRecOn with
  | nil => rfl
  | append_singleton xs x ih => rw [apps_concat, collectApps, ih]

/-! ### Shifting and substitution -/

/-- `index as i32`, which reads a `u32` from `2147483648` on as negative. -/
def asI32 (index : Nat) : Int :=
  if index < 0x80000000 then index else (index : Int) - 0x100000000

/-- `*index as i32 + amount`, refused when negative or past the range of `i32`. -/
def shiftIndex (index : Nat) (amount : Int) : Option Nat :=
  let shifted := asI32 index + amount
  if 0 ≤ shifted ∧ shifted < 0x80000000 then some shifted.toNat else none

/-- `shift_changed`, reporting an index that cannot be shifted by `invalid`. -/
def shiftAt (invalid : Nat → ε) (amount : Int) (cutoff : Nat) :
    Expr κ ν β → Except ε (Expr κ ν β)
  | sort level => .ok (sort level)
  | const name levels => .ok (const name levels)
  | bvar index =>
    if index < cutoff then .ok (bvar index)
    else (Result.okOr (shiftIndex index amount) (invalid index)).map bvar
  | app fn arg => do
    let fn ← shiftAt invalid amount cutoff fn
    let arg ← shiftAt invalid amount cutoff arg
    .ok (app fn arg)
  | lam binder ty body => do
    let ty ← shiftAt invalid amount cutoff ty
    let body ← shiftAt invalid amount (cutoff + 1) body
    .ok (lam binder ty body)
  | pi binder ty body => do
    let ty ← shiftAt invalid amount cutoff ty
    let body ← shiftAt invalid amount (cutoff + 1) body
    .ok (pi binder ty body)

/-- `shift`. -/
def shift (invalid : Nat → ε) (e : Expr κ ν β) (amount : Int) (cutoff : Nat) :
    Except ε (Expr κ ν β) :=
  if amount = 0 then .ok e else shiftAt invalid amount cutoff e

/-- `subst`: replace the variable `target` and lower the variables above it. -/
def subst (invalid : Nat → ε) (replacement : Expr κ ν β) (target : Nat) :
    Expr κ ν β → Except ε (Expr κ ν β)
  | sort level => .ok (sort level)
  | const name levels => .ok (const name levels)
  | bvar index =>
    if index = target then shift invalid replacement (asI32 target) 0
    else if target < index then .ok (bvar (index - 1))
    else .ok (bvar index)
  | app fn arg => do
    let fn ← subst invalid replacement target fn
    let arg ← subst invalid replacement target arg
    .ok (app fn arg)
  | lam binder ty body => do
    let ty ← subst invalid replacement target ty
    let body ← subst invalid replacement (target + 1) body
    .ok (lam binder ty body)
  | pi binder ty body => do
    let ty ← subst invalid replacement target ty
    let body ← subst invalid replacement (target + 1) body
    .ok (pi binder ty body)

/-- `instantiate`. -/
def instantiate (invalid : Nat → ε) (body value : Expr κ ν β) : Except ε (Expr κ ν β) :=
  subst invalid value 0 body

/-! ### Universe substitution -/

/-- `subst_levels_expr`. -/
def substLevelsExpr [DecidableEq ν] [Ord ν] (names : List ν) (levels : List (Level ν)) :
    Expr κ ν β → Expr κ ν β
  | sort level => sort (level.substLevel names levels)
  | bvar index => bvar index
  | const name us => const name (us.map (Level.substLevel names levels))
  | app fn arg => app (substLevelsExpr names levels fn) (substLevelsExpr names levels arg)
  | lam binder ty body =>
    lam binder (substLevelsExpr names levels ty) (substLevelsExpr names levels body)
  | pi binder ty body =>
    pi binder (substLevelsExpr names levels ty) (substLevelsExpr names levels body)

/-- The universe parameters that occur in an expression. -/
def levelParams : Expr κ ν β → List ν
  | sort level => level.params
  | bvar _ => []
  | const _ us => us.flatMap Level.params
  | app fn arg => fn.levelParams ++ arg.levelParams
  | lam _ ty body => ty.levelParams ++ body.levelParams
  | pi _ ty body => ty.levelParams ++ body.levelParams

/-! ### Occurrence of constants -/

/-- `contains_const`. -/
def containsConst [DecidableEq κ] (needle : κ) : Expr κ ν β → Bool
  | sort _ => false
  | bvar _ => false
  | const name _ => name = needle
  | app fn arg => containsConst needle fn || containsConst needle arg
  | lam _ ty body => containsConst needle ty || containsConst needle body
  | pi _ ty body => containsConst needle ty || containsConst needle body

/-- `contains_any_const`. -/
def containsAnyConst [DecidableEq κ] (needles : List κ) (e : Expr κ ν β) : Bool :=
  needles.any fun needle => containsConst needle e

/-! ### Equality up to binder names -/

/-- `quick_syntactic_eq`: equality that does not look at the display names of
    binders. The levels are compared as they stand. -/
def quickSyntacticEq [DecidableEq κ] [DecidableEq ν] : Expr κ ν β → Expr κ ν β → Bool
  | sort lhs, sort rhs => lhs = rhs
  | bvar lhs, bvar rhs => lhs = rhs
  | const lhs lhsLevels, const rhs rhsLevels => decide (lhs = rhs) && decide (lhsLevels = rhsLevels)
  | app lhsFn lhsArg, app rhsFn rhsArg =>
    quickSyntacticEq lhsFn rhsFn && quickSyntacticEq lhsArg rhsArg
  | lam _ lhsTy lhsBody, lam _ rhsTy rhsBody =>
    quickSyntacticEq lhsTy rhsTy && quickSyntacticEq lhsBody rhsBody
  | pi _ lhsTy lhsBody, pi _ rhsTy rhsBody =>
    quickSyntacticEq lhsTy rhsTy && quickSyntacticEq lhsBody rhsBody
  | _, _ => false

theorem quickSyntacticEq_comm [DecidableEq κ] [DecidableEq ν] (lhs rhs : Expr κ ν β) :
    quickSyntacticEq lhs rhs = quickSyntacticEq rhs lhs := by
  induction lhs generalizing rhs with
  | sort _ | bvar _ | const _ _ => cases rhs <;> simp [quickSyntacticEq, eq_comm]
  | app fn arg ihFn ihArg =>
    cases rhs with
    | app fn' arg' => simp only [quickSyntacticEq, ihFn fn', ihArg arg']
    | _ => rfl
  | lam _ ty body ihTy ihBody =>
    cases rhs with
    | lam _ ty' body' => simp only [quickSyntacticEq, ihTy ty', ihBody body']
    | _ => rfl
  | pi _ ty body ihTy ihBody =>
    cases rhs with
    | pi _ ty' body' => simp only [quickSyntacticEq, ihTy ty', ihBody body']
    | _ => rfl

/-- `expr_eq_ignoring_binder_names`: as above, with levels compared by `level_eq`. -/
def exprEqIgnoringBinderNames [DecidableEq κ] [Ord ν] : Expr κ ν β → Expr κ ν β → Bool
  | sort lhs, sort rhs => Level.levelEq lhs rhs
  | bvar lhs, bvar rhs => lhs = rhs
  | const lhs lhsLevels, const rhs rhsLevels =>
    decide (lhs = rhs) && Level.levelsEq lhsLevels rhsLevels
  | app lhsFn lhsArg, app rhsFn rhsArg =>
    exprEqIgnoringBinderNames lhsFn rhsFn && exprEqIgnoringBinderNames lhsArg rhsArg
  | lam _ lhsTy lhsBody, lam _ rhsTy rhsBody =>
    exprEqIgnoringBinderNames lhsTy rhsTy && exprEqIgnoringBinderNames lhsBody rhsBody
  | pi _ lhsTy lhsBody, pi _ rhsTy rhsBody =>
    exprEqIgnoringBinderNames lhsTy rhsTy && exprEqIgnoringBinderNames lhsBody rhsBody
  | _, _ => false

end Expr

end NpaCore
