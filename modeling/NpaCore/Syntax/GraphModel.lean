import Mathlib.Data.Set.Basic
import NpaCore.Syntax.Substitution

/-!
# A graph model of beta conversion

Terms denote sets of tokens, where a token is a step from finitely many tokens to
one: an abstraction denotes the steps that its body makes, and an application takes
the steps whose inputs the argument has. Sorts, constants and products denote nothing,
and the types of binders are not looked at. The model identifies a redex with its
contractum, so terms with different denotations are not beta convertible.

## Main result

`denote_beta`: a redex and its contractum have the same denotation.
-/

namespace NpaCore.Expr

variable {κ ν β : Type}

inductive Token where
  | base
  | step (inputs : List Token) (output : Token)

abbrev Valuation := Nat → Set Token

/-- The valuation under a binder. -/
def Valuation.push (tokens : Set Token) (ρ : Valuation) : Valuation
  | 0 => tokens
  | index + 1 => ρ index

def denote : Expr κ ν β → Valuation → Set Token
  | sort _, _ => ∅
  | bvar index, ρ => ρ index
  | const _ _, _ => ∅
  | app fn arg, ρ =>
    {token | ∃ inputs, (∀ input ∈ inputs, input ∈ denote arg ρ) ∧ .step inputs token ∈ denote fn ρ}
  | lam _ _ body, ρ =>
    {token | ∃ inputs output, token = .step inputs output ∧
      output ∈ denote body (Valuation.push {input | input ∈ inputs} ρ)}
  | pi _ _ _, _ => ∅

theorem push_mono {S T : Set Token} {ρ σ : Valuation} (first : S ⊆ T) (rest : ∀ i, ρ i ⊆ σ i) :
    ∀ i, Valuation.push S ρ i ⊆ Valuation.push T σ i
  | 0 => first
  | i + 1 => rest i

theorem denote_mono (e : Expr κ ν β) {ρ σ : Valuation} (h : ∀ i, ρ i ⊆ σ i) :
    e.denote ρ ⊆ e.denote σ := by
  induction e generalizing ρ σ with
  | sort _ | const _ _ | pi _ _ _ _ _ => exact Set.Subset.refl _
  | bvar index => exact h index
  | app fn arg ihFn ihArg =>
    rintro token ⟨inputs, inArg, inFn⟩
    exact ⟨inputs, fun input mem => ihArg h (inArg input mem), ihFn h inFn⟩
  | lam _ _ body _ ih =>
    rintro _ ⟨inputs, output, rfl, inBody⟩
    exact ⟨inputs, output, rfl, ih (push_mono (Set.Subset.refl _) h) inBody⟩

/-! ### Lifting and substitution -/

theorem denote_lift (e : Expr κ ν β) (amount cutoff : Nat) (ρ : Valuation) :
    (e.lift amount cutoff).denote ρ =
      e.denote fun i => if i < cutoff then ρ i else ρ (i + amount) := by
  induction e generalizing cutoff ρ with
  | sort _ | const _ _ | pi _ _ _ _ _ => rfl
  | bvar index =>
    simp only [lift, denote]
    split <;> rfl
  | app fn arg ihFn ihArg => simp only [lift, denote, ihFn, ihArg]
  | lam _ _ body _ ih =>
    simp only [lift, denote, ih]
    have under : ∀ S : Set Token, (fun i => if i < cutoff + 1 then Valuation.push S ρ i
        else Valuation.push S ρ (i + amount)) =
        Valuation.push S fun i => if i < cutoff then ρ i else ρ (i + amount) := by
      intro S
      funext i
      cases i with
      | zero => simp [Valuation.push]
      | succ i => simp [Valuation.push, Nat.succ_add]
    simp only [under]

theorem denote_substVar (value e : Expr κ ν β) (target : Nat) (ρ : Valuation) :
    (substVar value target e).denote ρ = e.denote fun i =>
      if i < target then ρ i
      else if i = target then value.denote fun j => ρ (j + target) else ρ (i - 1) := by
  induction e generalizing target ρ with
  | sort _ | const _ _ | pi _ _ _ _ _ => rfl
  | bvar index =>
    simp only [substVar, denote]
    split
    next same =>
      subst same
      simp [denote_lift]
    next other =>
      split
      next above =>
        have notBelow : ¬ index < target := by omega
        simp [denote, notBelow]
      next notAbove =>
        have below : index < target := by omega
        simp [denote, below]
  | app fn arg ihFn ihArg => simp only [substVar, denote, ihFn, ihArg]
  | lam _ _ body _ ih =>
    simp only [substVar, denote, ih]
    have under : ∀ S : Set Token, (fun i => if i < target + 1 then Valuation.push S ρ i
        else if i = target + 1 then value.denote fun j => Valuation.push S ρ (j + (target + 1))
        else Valuation.push S ρ (i - 1)) =
        Valuation.push S fun i => if i < target then ρ i
          else if i = target then value.denote fun j => ρ (j + target) else ρ (i - 1) := by
      intro S
      funext i
      cases i with
      | zero => simp [Valuation.push]
      | succ i =>
        by_cases below : i < target
        · simp [Valuation.push, below]
        · by_cases same : i = target
          · subst same
            simp [Valuation.push]
          · obtain ⟨i, rfl⟩ : ∃ k, i = k + 1 := ⟨i - 1, by omega⟩
            simp [Valuation.push, below, same]
    simp only [under]

/-! ### Beta -/

/-- A token needs finitely many tokens of any one variable. -/
theorem denote_finite (e : Expr κ ν β) (k : Nat) {ρ : Valuation} {token : Token}
    (h : token ∈ e.denote ρ) :
    ∃ inputs : List Token, (∀ input ∈ inputs, input ∈ ρ k) ∧
      token ∈ e.denote fun i => if i = k then {input | input ∈ inputs} else ρ i := by
  induction e generalizing k ρ token with
  | sort _ | const _ _ | pi _ _ _ _ _ => cases h
  | bvar index =>
    by_cases same : index = k
    · subst same
      exact ⟨[token], by simpa [denote] using h, by simp [denote]⟩
    · exact ⟨[], by simp, by simpa [denote, same] using h⟩
  | app fn arg ihFn ihArg =>
    obtain ⟨inputs, inArg, inFn⟩ := h
    obtain ⟨needed, hneeded, function⟩ := ihFn k inFn
    -- what the inputs need together, one after another
    obtain ⟨more, hmore, arguments⟩ : ∃ more : List Token, (∀ input ∈ more, input ∈ ρ k) ∧
        ∀ input ∈ inputs, input ∈ arg.denote fun i => if i = k then {t | t ∈ more} else ρ i := by
      clear inFn function
      induction inputs with
      | nil => exact ⟨[], by simp, by simp⟩
      | cons first rest ih =>
        obtain ⟨here, hhere, firstIn⟩ := ihArg k (inArg first (by simp))
        obtain ⟨later, hlater, restIn⟩ := ih fun input mem => inArg input (by simp [mem])
        refine ⟨here ++ later, ?_, ?_⟩
        · intro input mem
          rcases List.mem_append.mp mem with mem | mem
          · exact hhere input mem
          · exact hlater input mem
        · intro input mem
          rcases List.mem_cons.mp mem with rfl | mem
          · refine denote_mono arg (fun i => ?_) firstIn
            split
            · exact fun t ht => List.mem_append_left _ ht
            · exact Set.Subset.refl _
          · refine denote_mono arg (fun i => ?_) (restIn input mem)
            split
            · exact fun t ht => List.mem_append_right _ ht
            · exact Set.Subset.refl _
    refine ⟨needed ++ more, ?_, inputs, ?_, ?_⟩
    · intro input mem
      rcases List.mem_append.mp mem with mem | mem
      · exact hneeded input mem
      · exact hmore input mem
    · intro input mem
      refine denote_mono arg (fun i => ?_) (arguments input mem)
      split
      · exact fun t ht => List.mem_append_right _ ht
      · exact Set.Subset.refl _
    · refine denote_mono fn (fun i => ?_) function
      split
      · exact fun t ht => List.mem_append_left _ ht
      · exact Set.Subset.refl _
  | lam _ _ body _ ih =>
    obtain ⟨inputs, output, rfl, inBody⟩ := h
    obtain ⟨needed, hneeded, inBody⟩ := ih (k + 1) inBody
    refine ⟨needed, hneeded, inputs, output, rfl, ?_⟩
    have under : (fun i => if i = k + 1 then {t | t ∈ needed}
        else Valuation.push {t | t ∈ inputs} ρ i) =
        Valuation.push {t | t ∈ inputs} fun i => if i = k then {t | t ∈ needed} else ρ i := by
      funext i
      cases i with
      | zero => simp [Valuation.push]
      | succ i => simp [Valuation.push]
    rwa [under] at inBody

theorem denote_instVar (body arg : Expr κ ν β) (ρ : Valuation) :
    (body.instVar arg).denote ρ = body.denote (Valuation.push (arg.denote ρ) ρ) := by
  rw [instVar, denote_substVar]
  congr 1
  funext i
  cases i with
  | zero => rfl
  | succ i => simp [Valuation.push]

theorem denote_beta (binder : β) (ty body arg : Expr κ ν β) (ρ : Valuation) :
    (app (lam binder ty body) arg).denote ρ = (body.instVar arg).denote ρ := by
  rw [denote_instVar]
  apply Set.Subset.antisymm
  · rintro token ⟨inputs, inArg, _, _, ⟨⟩, inBody⟩
    exact denote_mono body (push_mono inArg fun _ => Set.Subset.refl _) inBody
  · intro token inBody
    obtain ⟨inputs, inArg, needed⟩ := denote_finite body 0 inBody
    refine ⟨inputs, inArg, inputs, token, rfl, ?_⟩
    refine denote_mono body (fun i => ?_) needed
    cases i with
    | zero => exact Set.Subset.refl _
    | succ i => exact Set.Subset.refl _

end NpaCore.Expr
