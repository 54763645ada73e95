import NpaCore.Syntax.GraphModel
import NpaCore.Kernel.Soundness

/-!
# Soundness of definitional equality

In environments built from declarations that lose no level, terms in range that
`is_defeq` finds equal are convertible. Out of range they need not be: the index
`4294967295` is read as `-1`, so that the variable becomes the nearest bound one when
it is moved under a binder.

## Main results

- `Built.isDefeq_sound`: positive answers are conversions.
- `isDefeq_unsound_at_last_index`: without the range they are not.
-/

namespace NpaCore.Kernel

open NpaCore.Expr

/-! ### Positive answers -/

theorem isDefeqWithFuel_spends {env : Env} {alloc : Allocator} {ctx : Ctx} {delta : List String}
    {lhs rhs : Expr} {fuel : Nat} {answer : Bool}
    (h : env.isDefeqWithFuel alloc ctx delta lhs rhs fuel = .ok answer) :
    ∃ left, DefeqSpends env ctx lhs rhs fuel (.ok answer) left := by
  obtain ⟨left, spent, _⟩ := isDefeqWithRemainingFuel_realises (alloc ctx [lhs, rhs]) delta ctx lhs
    .borrowed rhs .borrowed (env.newSession 0 fuel) (faithful_newSession env 0 fuel) trivial
  change DefeqSpends env ctx lhs rhs fuel (env.isDefeqWithFuel alloc ctx delta lhs rhs fuel) left
    at spent
  rw [h] at spent
  exact ⟨left, spent⟩

theorem Built.isDefeq_sound {env : Env} (built : Built NoLevelLeak env) (range : env.InRange)
    {alloc : Allocator} {ctx : Ctx} {delta : List String} {lhs rhs : Expr} {fuel : Nat}
    (rangeLhs : lhs.InRange) (rangeRhs : rhs.InRange)
    (h : env.isDefeqWithFuel alloc ctx delta lhs rhs fuel = .ok true) : Conv env lhs rhs := by
  obtain ⟨left, spent⟩ := isDefeqWithFuel_spends h
  exact spent.sound built.recursorsSafe range rangeLhs rangeRhs

/-! ### Out of range -/

/-- Without definitions and recursors, convertible terms have the same denotation. -/
theorem Conv.denote_eq {a b : Expr} (h : Conv Env.new a b) (ρ : Valuation) :
    a.denote ρ = b.denote ρ := by
  induction h generalizing ρ with
  | refl | sort | const | pi => rfl
  | symm _ ih => exact (ih ρ).symm
  | trans _ _ ihFirst ihSecond => exact (ihFirst ρ).trans (ihSecond ρ)
  | app _ _ ihFn ihArg => simp only [denote, ihFn, ihArg]
  | lam _ _ _ ihBody => simp only [denote, ihBody]
  | beta => exact denote_beta _ _ _ _ ρ
  | delta declared => cases declared
  | iota step =>
    cases step with
    | intro recursor => cases recursor

/-- The function that returns its first argument, at the last index. -/
def constantAtLast : Expr :=
  .app (.lam "x" (.sort .zero) (.lam "y" (.sort .zero) (.bvar 1))) (.bvar 4294967295)

def identity : Expr := .lam "y" (.sort .zero) (.bvar 0)

theorem constantAtLast_not_conv_identity : ¬ Conv Env.new constantAtLast identity := by
  intro converts
  have same := converts.denote_eq fun _ => ∅
  have returned : Token.step [.base] .base ∈ identity.denote fun _ => ∅ :=
    ⟨[.base], .base, rfl, List.mem_singleton.mpr rfl⟩
  rw [← same, constantAtLast, denote_beta] at returned
  obtain ⟨inputs, output, _, impossible⟩ := returned
  exact impossible

theorem isDefeq_sound_at_redex :
    let redex : Expr := .app identity (.sort .zero)
    Env.new.isDefeqWithFuel noReuse .new [] redex (.sort .zero) 10 = .ok true ∧
      Conv Env.new redex (.sort .zero) := by
  intro redex
  have answer : Env.new.isDefeqWithFuel noReuse .new [] redex (.sort .zero) 10 = .ok true :=
    Result.ok_of_toOption (by decide +kernel)
  have empty : Env.new.InRange := nofun
  exact ⟨answer, Built.isDefeq_sound (.start .memoOff) empty (by decide) (by decide) answer⟩

theorem isDefeq_unsound_at_last_index :
    ¬ ∀ env, Built (fun _ => True) env → ∀ alloc ctx delta lhs rhs fuel,
      Env.isDefeqWithFuel env alloc ctx delta lhs rhs fuel = .ok true → Conv env lhs rhs := by
  intro claim
  have answer : Env.new.isDefeqWithFuel noReuse .new [] constantAtLast identity 10 = .ok true :=
    Result.ok_of_toOption (by decide +kernel)
  exact constantAtLast_not_conv_identity
    (claim Env.new (.start .memoOff) noReuse .new [] constantAtLast identity 10 answer)

end NpaCore.Kernel
