import NpaCore.Syntax.Expr

/-!
# Levels and constants of an expression

Properties of every level and every constant in an expression, and the relation of
two expressions that differ in their levels only. The operations on variables do
not look at levels, so they keep both.

## Main definitions

- `Expr.Every`: every sort and every occurrence of a constant has a property.
- `Expr.Alike`: the expressions are equal up to related levels.
-/

namespace NpaCore.Expr

variable {κ ν β ε : Type}

/-! ### Every occurrence -/

/-- Every level of a sort has `P` and every occurrence of a constant has `Q`. -/
def Every (P : Level ν → Prop) (Q : κ → List (Level ν) → Prop) : Expr κ ν β → Prop
  | sort level => P level
  | bvar _ => True
  | const name levels => Q name levels
  | app fn arg => fn.Every P Q ∧ arg.Every P Q
  | lam _ ty body => ty.Every P Q ∧ body.Every P Q
  | pi _ ty body => ty.Every P Q ∧ body.Every P Q

section Every

variable {P P' : Level ν → Prop} {Q Q' : κ → List (Level ν) → Prop} {e : Expr κ ν β}

theorem Every.mono (h : e.Every P Q) (sorts : ∀ level, P level → P' level)
    (consts : ∀ name levels, Q name levels → Q' name levels) : e.Every P' Q' := by
  induction e with
  | sort level => exact sorts level h
  | bvar _ => trivial
  | const name levels => exact consts name levels h
  | app _ _ ihFn ihArg => exact ⟨ihFn h.1, ihArg h.2⟩
  | lam _ _ _ ihTy ihBody | pi _ _ _ ihTy ihBody => exact ⟨ihTy h.1, ihBody h.2⟩

theorem every_of_forall (sorts : ∀ level, P level) (consts : ∀ name levels, Q name levels)
    (e : Expr κ ν β) : e.Every P Q := by
  induction e with
  | sort level => exact sorts level
  | bvar _ => trivial
  | const name levels => exact consts name levels
  | app _ _ ihFn ihArg => exact ⟨ihFn, ihArg⟩
  | lam _ _ _ ihTy ihBody | pi _ _ _ ihTy ihBody => exact ⟨ihTy, ihBody⟩

theorem Every.and (h : e.Every P Q) (h' : e.Every P' Q') :
    e.Every (fun level => P level ∧ P' level)
      fun name levels => Q name levels ∧ Q' name levels := by
  induction e with
  | sort _ | const _ _ => exact ⟨h, h'⟩
  | bvar _ => trivial
  | app _ _ ihFn ihArg => exact ⟨ihFn h.1 h'.1, ihArg h.2 h'.2⟩
  | lam _ _ _ ihTy ihBody | pi _ _ _ ihTy ihBody =>
    exact ⟨ihTy h.1 h'.1, ihBody h.2 h'.2⟩

theorem every_levelParams {S : ν → Prop} :
    e.Every (fun level => ∀ p ∈ level.params, S p)
      (fun _ levels => ∀ level ∈ levels, ∀ p ∈ level.params, S p) ↔
      ∀ p ∈ e.levelParams, S p := by
  induction e with
  | sort _ => exact Iff.rfl
  | bvar _ => simp [Every, levelParams]
  | const _ levels =>
    simp only [Every, levelParams, List.mem_flatMap]
    constructor
    · rintro h p ⟨level, mem, hp⟩
      exact h level mem p hp
    · intro h level mem p hp
      exact h p ⟨level, mem, hp⟩
  | app _ _ ihFn ihArg =>
    simp only [Every, levelParams, List.mem_append, or_imp, forall_and, ihFn, ihArg]
  | lam _ _ _ ihTy ihBody | pi _ _ _ ihTy ihBody =>
    simp only [Every, levelParams, List.mem_append, or_imp, forall_and, ihTy, ihBody]

theorem Every.collectApps (h : e.Every P Q) :
    e.collectApps.1.Every P Q ∧ ∀ arg ∈ e.collectApps.2, arg.Every P Q := by
  induction e with
  | app fn arg ih _ =>
    obtain ⟨head, args⟩ := ih h.1
    refine ⟨head, ?_⟩
    intro e mem
    rcases List.mem_append.mp mem with mem | mem
    · exact args e mem
    · cases List.mem_singleton.mp mem
      exact h.2
  | sort _ | bvar _ | const _ _ | lam _ _ _ | pi _ _ _ => exact ⟨h, by simp [Expr.collectApps]⟩

theorem Every.domains (h : e.Every P Q) : ∀ domain ∈ e.peelPiDomains.1, domain.Every P Q := by
  induction e with
  | pi _ ty body _ ih =>
    intro domain mem
    rcases List.mem_cons.mp mem with rfl | mem
    · exact h.1
    · exact ih h.2 domain mem
  | sort _ | bvar _ | const _ _ | app _ _ | lam _ _ _ => simp [peelPiDomains]

end Every

/-! ### Equality up to levels -/

/-- The expressions have the same form, with `R` between the levels of their sorts and `C`
    between the levels of their constants. -/
inductive Alike (R : Level ν → Level ν → Prop)
    (C : κ → List (Level ν) → List (Level ν) → Prop) : Expr κ ν β → Expr κ ν β → Prop
  | sort {lhs rhs} (h : R lhs rhs) : Alike R C (sort lhs) (sort rhs)
  | bvar {index} : Alike R C (bvar index) (bvar index)
  | const {name lhs rhs} (h : C name lhs rhs) : Alike R C (const name lhs) (const name rhs)
  | app {fn arg fn' arg'} (function : Alike R C fn fn') (argument : Alike R C arg arg') :
      Alike R C (app fn arg) (app fn' arg')
  | lam {binder ty body ty' body'} (domain : Alike R C ty ty') (under : Alike R C body body') :
      Alike R C (lam binder ty body) (lam binder ty' body')
  | pi {binder ty body ty' body'} (domain : Alike R C ty ty') (under : Alike R C body body') :
      Alike R C (pi binder ty body) (pi binder ty' body')

section Alike

variable {R : Level ν → Level ν → Prop} {C : κ → List (Level ν) → List (Level ν) → Prop}
  {e f : Expr κ ν β}

/-- Two expressions that are both like a third. -/
theorem Alike.join {R' R'' : Level ν → Level ν → Prop}
    {C' C'' : κ → List (Level ν) → List (Level ν) → Prop} {g : Expr κ ν β} (h : Alike R C e f)
    (h' : Alike R' C' e g) (sorts : ∀ level lhs rhs, R level lhs → R' level rhs → R'' lhs rhs)
    (consts : ∀ name levels lhs rhs, C name levels lhs → C' name levels rhs → C'' name lhs rhs) :
    Alike R'' C'' f g := by
  induction h generalizing g with
  | sort h =>
    cases h' with
    | sort h' => exact .sort (sorts _ _ _ h h')
  | bvar =>
    cases h' with
    | bvar => exact .bvar
  | const h =>
    cases h' with
    | const h' => exact .const (consts _ _ _ _ h h')
  | app _ _ ihFn ihArg =>
    cases h' with
    | app function argument => exact .app (ihFn function) (ihArg argument)
  | lam _ _ ihTy ihBody =>
    cases h' with
    | lam domain under => exact .lam (ihTy domain) (ihBody under)
  | pi _ _ ihTy ihBody =>
    cases h' with
    | pi domain under => exact .pi (ihTy domain) (ihBody under)

/-- What holds of the levels on the left. -/
theorem Alike.every {P : Level ν → Prop} {Q : κ → List (Level ν) → Prop} (h : Alike R C e f)
    (sorts : ∀ lhs rhs, R lhs rhs → P lhs) (consts : ∀ name lhs rhs, C name lhs rhs → Q name lhs) :
    e.Every P Q := by
  induction h with
  | sort h => exact sorts _ _ h
  | bvar => trivial
  | const h => exact consts _ _ _ h
  | app _ _ ihFn ihArg => exact ⟨ihFn, ihArg⟩
  | lam _ _ ihTy ihBody | pi _ _ ihTy ihBody => exact ⟨ihTy, ihBody⟩

theorem Alike.apps {xs ys : List (Expr κ ν β)} (h : Alike R C e f)
    (args : List.Forall₂ (Alike R C) xs ys) : Alike R C (e.apps xs) (f.apps ys) := by
  induction args generalizing e f with
  | nil => exact h
  | cons first _ ih => exact ih (.app h first)

theorem Alike.collectApps (h : Alike R C e f) :
    Alike R C e.collectApps.1 f.collectApps.1 ∧
      List.Forall₂ (Alike R C) e.collectApps.2 f.collectApps.2 := by
  induction h with
  | app _ argument ih _ =>
    obtain ⟨head, args⟩ := ih
    exact ⟨head, List.rel_append args (.cons argument .nil)⟩
  | sort h => exact ⟨.sort h, .nil⟩
  | bvar => exact ⟨.bvar, .nil⟩
  | const h => exact ⟨.const h, .nil⟩
  | lam domain under => exact ⟨.lam domain under, .nil⟩
  | pi domain under => exact ⟨.pi domain under, .nil⟩

/-! ### Shifting and substitution -/

variable {invalid : Nat → ε}

theorem Alike.shiftAt {amount : Int} {cutoff : Nat} (h : Alike R C e f) :
    Result.Simulates (Alike R C) (Expr.shiftAt invalid amount cutoff e)
      (Expr.shiftAt invalid amount cutoff f) := by
  induction h generalizing cutoff with
  | sort h => exact Result.simulates_ok (.sort h)
  | const h => exact Result.simulates_ok (.const h)
  | @bvar index =>
    refine Result.simulates_self fun shifted hshifted => ?_
    simp only [Expr.shiftAt] at hshifted
    split at hshifted
    next =>
      cases hshifted
      exact .bvar
    next =>
      obtain ⟨moved, _, rfl⟩ := Result.map_eq_ok.mp hshifted
      exact .bvar
  | app _ _ ihFn ihArg =>
    refine Result.simulates_bind ihFn fun _ _ function => ?_
    exact Result.simulates_bind ihArg fun _ _ argument =>
      Result.simulates_ok (.app function argument)
  | lam _ _ ihTy ihBody =>
    refine Result.simulates_bind ihTy fun _ _ domain => ?_
    exact Result.simulates_bind ihBody fun _ _ under => Result.simulates_ok (.lam domain under)
  | pi _ _ ihTy ihBody =>
    refine Result.simulates_bind ihTy fun _ _ domain => ?_
    exact Result.simulates_bind ihBody fun _ _ under => Result.simulates_ok (.pi domain under)

theorem Alike.shift {amount : Int} {cutoff : Nat} (h : Alike R C e f) :
    Result.Simulates (Alike R C) (Expr.shift invalid e amount cutoff)
      (Expr.shift invalid f amount cutoff) := by
  unfold Expr.shift
  split
  next => exact Result.simulates_ok h
  next => exact h.shiftAt

theorem Alike.subst {target : Nat} {a b : Expr κ ν β} (h : Alike R C e f)
    (replacement : Alike R C a b) :
    Result.Simulates (Alike R C) (Expr.subst invalid a target e) (Expr.subst invalid b target f) := by
  induction h generalizing target with
  | sort h => exact Result.simulates_ok (.sort h)
  | const h => exact Result.simulates_ok (.const h)
  | bvar =>
    simp only [Expr.subst]
    split
    next => exact replacement.shift
    next =>
      split
      next => exact Result.simulates_ok .bvar
      next => exact Result.simulates_ok .bvar
  | app _ _ ihFn ihArg =>
    refine Result.simulates_bind ihFn fun _ _ function => ?_
    exact Result.simulates_bind ihArg fun _ _ argument =>
      Result.simulates_ok (.app function argument)
  | lam _ _ ihTy ihBody =>
    refine Result.simulates_bind ihTy fun _ _ domain => ?_
    exact Result.simulates_bind ihBody fun _ _ under => Result.simulates_ok (.lam domain under)
  | pi _ _ ihTy ihBody =>
    refine Result.simulates_bind ihTy fun _ _ domain => ?_
    exact Result.simulates_bind ihBody fun _ _ under => Result.simulates_ok (.pi domain under)

theorem Alike.instantiate {a b : Expr κ ν β} (h : Alike R C e f) (value : Alike R C a b) :
    Result.Simulates (Alike R C) (Expr.instantiate invalid e a)
      (Expr.instantiate invalid f b) :=
  h.subst value

end Alike

/-! ### Changing the levels -/

/-- The expression with a function applied to its levels. -/
def mapLevels (g : Level ν → Level ν) : Expr κ ν β → Expr κ ν β
  | sort level => sort (g level)
  | bvar index => bvar index
  | const name levels => const name (levels.map g)
  | app fn arg => app (fn.mapLevels g) (arg.mapLevels g)
  | lam binder ty body => lam binder (ty.mapLevels g) (body.mapLevels g)
  | pi binder ty body => pi binder (ty.mapLevels g) (body.mapLevels g)

theorem mapLevels_id (e : Expr κ ν β) : e.mapLevels id = e := by
  induction e with
  | sort _ | bvar _ => rfl
  | const _ _ => rw [mapLevels, List.map_id]
  | app _ _ ihFn ihArg => rw [mapLevels, ihFn, ihArg]
  | lam _ _ _ ihTy ihBody | pi _ _ _ ihTy ihBody => rw [mapLevels, ihTy, ihBody]

theorem mapLevels_substLevel [DecidableEq ν] [Ord ν] (names : List ν) (levels : List (Level ν))
    (e : Expr κ ν β) :
    e.mapLevels (Level.substLevel names levels) = e.substLevelsExpr names levels := by
  induction e with
  | sort _ | bvar _ | const _ _ => rfl
  | app _ _ ihFn ihArg => rw [mapLevels, ihFn, ihArg, substLevelsExpr]
  | lam _ _ _ ihTy ihBody | pi _ _ _ ihTy ihBody => rw [mapLevels, ihTy, ihBody, substLevelsExpr]

theorem Every.alike_mapLevels {P : Level ν → Prop} {Q : κ → List (Level ν) → Prop}
    {R : Level ν → Level ν → Prop} {C : κ → List (Level ν) → List (Level ν) → Prop}
    {e : Expr κ ν β} (h : e.Every P Q) (g k : Level ν → Level ν)
    (sorts : ∀ level, P level → R (g level) (k level))
    (consts : ∀ name levels, Q name levels → C name (levels.map g) (levels.map k)) :
    Alike R C (e.mapLevels g) (e.mapLevels k) := by
  induction e with
  | sort level => exact .sort (sorts level h)
  | bvar _ => exact .bvar
  | const name levels => exact .const (consts name levels h)
  | app _ _ ihFn ihArg => exact .app (ihFn h.1) (ihArg h.2)
  | lam _ _ _ ihTy ihBody => exact .lam (ihTy h.1) (ihBody h.2)
  | pi _ _ _ ihTy ihBody => exact .pi (ihTy h.1) (ihBody h.2)

end NpaCore.Expr
