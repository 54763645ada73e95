import NpaCore.Reference.UniverseAgreement

/-!
# When the two universe solvers agree

The kernel knows the names of the reference checker in their dotted form. The solvers give the
same verdicts on every question over a set of names exactly when the dotted forms are in the
order of the names. What an entailment means does not depend on the names: joined in an
order-keeping way, they carry the soundness theorem of the kernel over.

## Main results

`solversAgree_iff`: which sets of names the solvers agree on.
`entailsLevelLe_sound_iff_harmless`: when entailment in the reference checker is sound.
-/

namespace NpaCore.Reference

open NpaCore.Level (mapNames mapNames_eval mapNames_maxEval mapNames_injective KeepsOrder
  normalizeLevel)
open Result (Matches)
open ReferenceModuleName (dotted ordered dotted_injective ordered_injective compare_ordered
  toList_dotted toList_ordered not_meta_intercalate)

/-! ### Verdicts on names in their dotted form -/

/-- The reference solver and the kernel's give the same verdicts on the names. -/
structure SolversAgree (names : Set ReferenceModuleName) : Prop where
  normalize : ∀ level, Admissible names level →
    mapNames dotted (normalizeReferenceLevel level) = normalizeLevel (mapNames dotted level)
  new : ∀ offset params constraints, (∀ param ∈ params, param ∈ names) →
    (∀ c ∈ constraints, c.Admissible names) →
      ((∃ context, ReferenceUniverseContext.new offset params constraints = .ok context) ↔
        ∃ context, Kernel.UniverseContext.new (params.map dotted)
          (constraints.map (ReferenceUniverseConstraint.rename dotted)) = .ok context)
  entails : ∀ offset params constraints, (∀ param ∈ params, param ∈ names) →
    (∀ c ∈ constraints, c.Admissible names) → ∀ context other,
      ReferenceUniverseContext.new offset params constraints = .ok context →
      Kernel.UniverseContext.new (params.map dotted)
        (constraints.map (ReferenceUniverseConstraint.rename dotted)) = .ok other →
      ∀ lhs rhs, Admissible names lhs → Admissible names rhs →
        (context.entailsLevelLe offset lhs rhs).toOption =
          (other.entailsLevelLe (mapNames dotted lhs) (mapNames dotted rhs)).toOption

variable {names : Set ReferenceModuleName}

theorem renames_dotted (keeps : KeepsOrder dotted names) :
    Renames dotted names :=
  ⟨keeps, fun name _ => not_meta_intercalate name (by decide) (by decide) (toList_dotted name)⟩

theorem renames_ordered (names : Set ReferenceModuleName) : Renames ordered names :=
  ⟨fun a _ b _ => compare_ordered a b,
    fun name _ => not_meta_intercalate name (by decide) (by decide) (toList_ordered name)⟩

theorem solversAgree_of_keeps (keeps : KeepsOrder dotted names) :
    SolversAgree names where
  normalize level h := by
    rw [normalizeReferenceLevel_eq h.small, keeps.normalizeLevel h.overNames]
  new offset params constraints sub admissible :=
    (new_matches (renames_dotted keeps) offset sub admissible).isOk_iff
  entails offset params constraints sub admissible context other built built' lhs rhs left right := by
    have both := new_matches (renames_dotted keeps) offset sub admissible
    rw [built, built'] at both
    obtain ⟨rfl, rfl, -, nodup⟩ := both
    exact (entailsLevelLe_matches (renames_dotted keeps) sub nodup left right).toOption_eq

/-- Two parameters without constraints are accepted in one order only. -/
theorem kernel_new_pair_iff {s t : String} (first : Kernel.isUnresolvedUniverseMetaParam s = false)
    (second : Kernel.isUnresolvedUniverseMetaParam t = false) :
    (∃ context, Kernel.UniverseContext.new [s, t] [] = .ok context) ↔ compare s t = .lt := by
  have limits : Kernel.ensureUniverseNodeLimit 2 = .ok () ∧ Kernel.ensureUniverseEdgeLimit 2 = .ok () :=
    ⟨rfl, rfl⟩
  rw [← Ordering.isLT_iff_eq_lt]
  constructor
  · rintro ⟨context, built⟩
    simp only [Kernel.UniverseContext.new, List.isEmpty_nil, if_true,
      Kernel.UniverseContext.fromParams, Kernel.validateUniverseParams, Result.bind_eq_ok,
      Result.ensure_eq_ok, Kernel.strictlySorted, Bool.and_true] at built
    obtain ⟨_, ⟨_, _, _, sorted, _⟩, _⟩ := built
    exact sorted
  · intro less
    have differ : ¬t = s := by
      rintro rfl
      rw [Std.ReflOrd.compare_self] at less
      cases less
    have checked : Kernel.validateUniverseParams [s, t] = .ok [s, t] := by
      simp [Kernel.validateUniverseParams, Kernel.checkUniverseParams, first, second, differ,
        Kernel.strictlySorted, less, Result.ensure, Result.ok_bind]
    refine ⟨⟨[s, t], [], Kernel.withLowerBounds 2⟩, ?_⟩
    rw [Kernel.UniverseContext.new, List.isEmpty_nil, if_pos rfl, Kernel.UniverseContext.fromParams,
      checked, Result.ok_bind, List.length_cons, List.length_singleton, limits.1, limits.2]
    rfl

theorem new_pair_iff (offset : Nat) (a b : ReferenceModuleName) :
    (∃ context, ReferenceUniverseContext.new offset [a, b] [] = .ok context) ↔
      compare a b = .lt := by
  have renames := renames_ordered Set.univ
  have both : Matches _ (ReferenceUniverseContext.new offset [a, b] []) _ :=
    new_matches renames offset (fun _ _ => Set.mem_univ _) nofun
  rw [both.isOk_iff, ← compare_ordered]
  exact kernel_new_pair_iff (renames.resolved a trivial) (renames.resolved b trivial)

theorem keeps_of_solversAgree (agree : SolversAgree names) :
    KeepsOrder dotted names := by
  have resolved : ∀ name : ReferenceModuleName,
      Kernel.isUnresolvedUniverseMetaParam name.dotted = false :=
    fun name => not_meta_intercalate name (by decide) (by decide) (toList_dotted name)
  have less : ∀ a ∈ names, ∀ b ∈ names, compare a b = .lt ↔ compare a.dotted b.dotted = .lt := by
    intro a ha b hb
    rw [← new_pair_iff 0, ← kernel_new_pair_iff (resolved a) (resolved b)]
    exact agree.new 0 [a, b] [] (by simp [ha, hb]) nofun
  intro a ha b hb
  have here := less a ha b hb
  have there := less b hb a ha
  rw [Std.OrientedOrd.eq_swap (a := b), Std.OrientedOrd.eq_swap (a := b.dotted)] at there
  have equal : compare a b = .eq ↔ compare a.dotted b.dotted = .eq := by
    rw [Std.LawfulEqOrd.compare_eq_iff_eq, Std.LawfulEqOrd.compare_eq_iff_eq]
    exact dotted_injective.eq_iff.symm
  generalize compare a b = ours at *
  generalize compare a.dotted b.dotted = theirs at *
  revert here there equal
  revert ours theirs
  decide

/-- The solvers agree on a set of names exactly when the dotted forms are in its order. -/
theorem solversAgree_iff (names : Set ReferenceModuleName) :
    SolversAgree names ↔ KeepsOrder dotted names :=
  ⟨keeps_of_solversAgree, solversAgree_of_keeps⟩

/-! ### Soundness -/

def ReferenceUniverseConstraint.Holds (ρ : ReferenceModuleName → Nat)
    (constraint : ReferenceUniverseConstraint) : Prop :=
  match constraint.relation with
  | .le => constraint.lhs.eval ρ ≤ constraint.rhs.eval ρ
  | .eq => constraint.lhs.eval ρ = constraint.rhs.eval ρ

/-- The valuation satisfies every constraint of the list. -/
def Satisfies (ρ : ReferenceModuleName → Nat) (constraints : List ReferenceUniverseConstraint) :
    Prop :=
  ∀ constraint ∈ constraints, constraint.Holds ρ

/-- Whatever satisfies the declared constraints also satisfies each inequality among them,
    between different sides, when every `imax` on its left is read as `max`. -/
def IMaxHarmless (constraints : List ReferenceUniverseConstraint) : Prop :=
  ∀ ρ, Satisfies ρ constraints → ∀ constraint ∈ constraints, constraint.relation = .le →
    constraint.lhs ≠ constraint.rhs → constraint.lhs.maxEval ρ ≤ constraint.rhs.eval ρ

/-- The level that an atom denotes. -/
def ReferenceAtom.level (atom : ReferenceAtom) : ReferenceCoreLevel :=
  let base := match atom.base with
    | .zero => .zero
    | .param name => .param name
  Nat.repeat .succ atom.offset base

variable {constraints : List ReferenceUniverseConstraint}

section Valuations

variable {f : ReferenceModuleName → String}

theorem holds_rename (ρ : String → Nat) (constraint : ReferenceUniverseConstraint) :
    (constraint.rename f).Holds ρ ↔ constraint.Holds (ρ ∘ f) := by
  obtain ⟨lhs, relation, rhs⟩ := constraint
  cases relation with
  | le =>
    change (mapNames f lhs).eval ρ ≤ (mapNames f rhs).eval ρ ↔ _
    rw [mapNames_eval, mapNames_eval]
    rfl
  | eq =>
    change (mapNames f lhs).eval ρ = (mapNames f rhs).eval ρ ↔ _
    rw [mapNames_eval, mapNames_eval]
    rfl

theorem satisfies_rename (ρ : String → Nat) :
    Kernel.Satisfies ρ (constraints.map (ReferenceUniverseConstraint.rename f)) ↔
      Satisfies (ρ ∘ f) constraints := by
  simp only [Kernel.Satisfies, Satisfies, List.forall_mem_map, holds_rename]

/-- Every valuation of the names comes from one of the strings that stand for them. -/
theorem exists_valuation (injective : Function.Injective f) (ρ : ReferenceModuleName → Nat) :
    ∃ σ : String → Nat, σ ∘ f = ρ :=
  ⟨Function.extend f ρ fun _ => 0, funext fun name => injective.extend_apply ρ _ name⟩

theorem imaxHarmless_rename (injective : Function.Injective f) :
    Kernel.IMaxHarmless (constraints.map (ReferenceUniverseConstraint.rename f)) ↔
      IMaxHarmless constraints := by
  have each : ∀ σ : String → Nat,
      (∀ constraint ∈ constraints.map (ReferenceUniverseConstraint.rename f),
        constraint.relation = .le → constraint.lhs ≠ constraint.rhs →
          constraint.lhs.maxEval σ ≤ constraint.rhs.eval σ) ↔
      ∀ constraint ∈ constraints, constraint.relation = .le → constraint.lhs ≠ constraint.rhs →
        constraint.lhs.maxEval (σ ∘ f) ≤ constraint.rhs.eval (σ ∘ f) := by
    intro σ
    simp only [List.forall_mem_map, ReferenceUniverseConstraint.rename, mapNames_maxEval,
      mapNames_eval, ne_eq, (mapNames_injective f injective).eq_iff]
  constructor
  · intro harmless ρ hρ
    obtain ⟨σ, rfl⟩ := exists_valuation injective ρ
    exact (each σ).mp (harmless σ ((satisfies_rename σ).mpr hρ))
  · intro harmless σ hσ
    exact (each σ).mpr (harmless (σ ∘ f) ((satisfies_rename σ).mp hσ))

end Valuations

/-! ### What is recorded -/

section Recorded

variable {f : ReferenceModuleName → String} {names : Set ReferenceModuleName}

theorem ReferenceAtom.level_rename (atom : ReferenceAtom) :
    mapNames f atom.level = (atom.rename f).level := by
  obtain ⟨base, offset⟩ := atom
  simp only [ReferenceAtom.level, ReferenceAtom.rename, Kernel.Atom.level]
  induction offset with
  | zero => cases base <;> rfl
  | succ offset ih => exact congrArg Level.succ ih

theorem ReferenceAtom.Within.level {atom : ReferenceAtom} (h : atom.Within names) :
    Admissible names atom.level := by
  obtain ⟨base, offset⟩ := atom
  obtain ⟨overNames, small⟩ := h
  change base.Over names at overNames
  have tower : (ReferenceAtom.level ⟨base, offset⟩).Over names ∧
      (ReferenceAtom.level ⟨base, offset⟩).height = offset + 1 := by
    clear small
    simp only [ReferenceAtom.level]
    induction offset with
    | zero =>
      cases base with
      | zero => exact ⟨Level.over_zero, rfl⟩
      | param name => exact ⟨Level.over_param.mpr overNames, rfl⟩
    | succ offset ih => exact ⟨ih.1, congrArg (· + 1) ih.2⟩
  refine ⟨tower.1, ?_⟩
  rw [tower.2]
  exact small

/-- Whatever the kernel decomposes the renamed constraints into comes from atoms here. -/
theorem exists_recorded (renames : Renames f names) (offset : Nat)
    (admissible : ∀ c ∈ constraints, c.Admissible names) {added : List Kernel.AtomInequality}
    (decomposes : Kernel.Decomposes (constraints.map (ReferenceUniverseConstraint.rename f)) added)
    {other : Kernel.AtomInequality} (mem : other ∈ added) :
    ∃ inequality : ReferenceAtomInequality, inequality.Within names ∧ inequality.rename f = other := by
  induction constraints generalizing added with
  | nil =>
    cases decomposes
    cases mem
  | cons constraint rest ih =>
    obtain ⟨here, admissible⟩ := List.forall_mem_cons.mp admissible
    rw [List.map_cons] at decomposes
    cases decomposes with
    | cons first later =>
      rcases List.mem_append.mp mem with mem | mem
      · have both : Matches _ (decomposeReferenceConstraint offset constraint) _ :=
          decomposeReferenceConstraint_matches renames here
        rw [first] at both
        cases found : decomposeReferenceConstraint offset constraint with
        | error => rw [found] at both; exact both.elim
        | ok inequalities =>
          rw [found] at both
          obtain ⟨rfl, within⟩ := both
          obtain ⟨inequality, hmem, rfl⟩ := List.mem_map.mp mem
          exact ⟨inequality, within inequality hmem, rfl⟩
      · exact ih admissible later mem

end Recorded

/-- Entailment against an accepted context is sound, for all levels and all valuations of
    the declared constraints, exactly when those constraints are `IMaxHarmless`. -/
theorem entailsLevelLe_sound_iff_harmless {offset : Nat} {params : List ReferenceModuleName}
    (admissible : ∀ c ∈ constraints, c.Admissible Set.univ) {context : ReferenceUniverseContext}
    (h : ReferenceUniverseContext.new offset params constraints = .ok context) :
    (∀ lhs rhs, Admissible Set.univ lhs → Admissible Set.univ rhs → ∀ ρ, Satisfies ρ constraints →
      context.entailsLevelLe offset lhs rhs = .ok true → lhs.eval ρ ≤ rhs.eval ρ) ↔
    IMaxHarmless constraints := by
  have renames := renames_ordered Set.univ
  have both : Matches _ (ReferenceUniverseContext.new offset params constraints) _ :=
    new_matches renames offset (fun _ _ => Set.mem_univ _) admissible
  rw [h] at both
  cases built : Kernel.UniverseContext.new (params.map ordered)
      (constraints.map (ReferenceUniverseConstraint.rename ordered)) with
  | error => rw [built] at both; exact both.elim
  | ok other =>
    rw [built] at both
    obtain ⟨rfl, rfl, -, nodup⟩ := both
    obtain ⟨added, accepted⟩ := Kernel.new_accepted built
    have answers : ∀ {lhs rhs}, Admissible Set.univ lhs → Admissible Set.univ rhs →
        (context.entailsLevelLe offset lhs rhs = .ok true ↔
          (context.rename ordered).entailsLevelLe (mapNames ordered lhs) (mapNames ordered rhs) =
            .ok true) := by
      intro lhs rhs left right
      have same : Matches Eq (context.entailsLevelLe offset lhs rhs) _ :=
        entailsLevelLe_matches renames (fun _ _ => Set.mem_univ _) nodup left right
      exact same.eq_ok_iff
    rw [← imaxHarmless_rename ordered_injective]
    constructor
    · intro sound
      refine Kernel.imaxHarmless_of_recorded accepted fun σ hσ other mem => ?_
      obtain ⟨inequality, within, rfl⟩ :=
        exists_recorded renames offset admissible accepted.decomposes mem
      have entailed := Kernel.entailsLevelLe_of_recorded accepted mem
      have bound := sound inequality.lhs.level inequality.rhs.level within.1.level within.2.level
        (σ ∘ ordered) ((satisfies_rename σ).mp hσ) ((answers within.1.level within.2.level).mpr <| by
          rw [ReferenceAtom.level_rename, ReferenceAtom.level_rename]
          exact entailed)
      rw [← mapNames_eval, ← mapNames_eval, ReferenceAtom.level_rename,
        ReferenceAtom.level_rename] at bound
      simp only [Kernel.Atom.level_eval] at bound
      exact bound
    · intro harmless lhs rhs left right ρ hρ entailed
      obtain ⟨σ, rfl⟩ := exists_valuation ordered_injective ρ
      have bound := (Kernel.entailsLevelLe_sound_iff built).mpr harmless _ _ σ
        ((satisfies_rename σ).mpr hρ) ((answers left right).mp entailed)
      rwa [mapNames_eval, mapNames_eval] at bound

/-! ### The verdicts together -/

/-- Over any names, the two solvers agree exactly when the dotted forms are in the order of the
names, and an accepted context of the reference checker is sound exactly when its constraints
are `IMaxHarmless`. -/
theorem universeSolvers_verdicts (names : Set ReferenceModuleName) :
    (SolversAgree names ↔ KeepsOrder dotted names) ∧
    ∀ offset params constraints context, (∀ c ∈ constraints, c.Admissible Set.univ) →
      ReferenceUniverseContext.new offset params constraints = .ok context →
      ((∀ lhs rhs, Admissible Set.univ lhs → Admissible Set.univ rhs → ∀ ρ,
        Satisfies ρ constraints → context.entailsLevelLe offset lhs rhs = .ok true →
          lhs.eval ρ ≤ rhs.eval ρ) ↔ IMaxHarmless constraints) :=
  ⟨solversAgree_iff names, fun _ _ _ _ admissible built =>
    entailsLevelLe_sound_iff_harmless admissible built⟩

section Examples

/-- `u`, `v`, `w`, `a.b` and `a'`. -/
def nameU : ReferenceModuleName := ⟨["u"], by decide +kernel⟩

def nameV : ReferenceModuleName := ⟨["v"], by decide +kernel⟩

def nameW : ReferenceModuleName := ⟨["w"], by decide +kernel⟩

def nameDot : ReferenceModuleName := ⟨["a", "b"], by decide +kernel⟩

def namePrime : ReferenceModuleName := ⟨["a'"], by decide +kernel⟩

theorem universeSolvers_verdicts_at_order :
    SolversAgree {nameU, nameV} ∧
    ∃ context, ReferenceUniverseContext.new 0 [nameU, nameV]
        [⟨.param nameU, .le, .param nameV⟩] = .ok context ∧
      ∀ lhs rhs, Admissible Set.univ lhs → Admissible Set.univ rhs → ∀ ρ, ρ nameU ≤ ρ nameV →
        context.entailsLevelLe 0 lhs rhs = .ok true → lhs.eval ρ ≤ rhs.eval ρ := by
  constructor
  · refine (universeSolvers_verdicts {nameU, nameV}).1.mpr ?_
    rintro a (rfl | rfl) b (rfl | rfl) <;> decide +kernel
  · let context : ReferenceUniverseContext := ⟨[nameU, nameV], [⟨.param nameU, .le, .param nameV⟩],
      [[some 0, none, none], [some 0, some 0, none], [some 0, some 0, some 0]]⟩
    have built : ReferenceUniverseContext.new 0 [nameU, nameV]
        [⟨.param nameU, .le, .param nameV⟩] = .ok context := by decide +kernel
    have admissible : ∀ c ∈ [(⟨.param nameU, .le, .param nameV⟩ : ReferenceUniverseConstraint)],
        c.Admissible Set.univ := by
      intro c hc
      obtain rfl := List.mem_singleton.mp hc
      exact ⟨⟨fun _ _ => trivial, by decide⟩, ⟨fun _ _ => trivial, by decide⟩⟩
    have harmless : IMaxHarmless [⟨.param nameU, .le, .param nameV⟩] := by
      intro ρ hρ c hc _ _
      obtain rfl := List.mem_singleton.mp hc
      exact hρ _ (List.mem_singleton.mpr rfl)
    refine ⟨context, built, fun lhs rhs left right ρ order entailed => ?_⟩
    refine ((universeSolvers_verdicts {nameU, nameV}).2 0 _ _ context admissible built).mpr harmless
      lhs rhs left right ρ (fun c hc => ?_) entailed
    obtain rfl := List.mem_singleton.mp hc
    exact order

/-- The parameters `a.b`, `a'` are accepted here and rejected by the kernel, and from
`imax u v <= w` it follows here that `u <= w`, which fails at `u = 5`, `v = 0`, `w = 0`. -/
theorem universeSolvers_differ :
    ((∃ context, ReferenceUniverseContext.new 0 [nameDot, namePrime] [] = .ok context) ∧
      ¬∃ context, Kernel.UniverseContext.new ([nameDot, namePrime].map dotted) [] = .ok context) ∧
    ∃ context ρ, ReferenceUniverseContext.new 0 [nameU, nameV, nameW]
        [⟨.imax (.param nameU) (.param nameV), .le, .param nameW⟩] = .ok context ∧
      Satisfies ρ [⟨.imax (.param nameU) (.param nameV), .le, .param nameW⟩] ∧
      context.entailsLevelLe 0 (.param nameU) (.param nameW) = .ok true ∧
      ¬Level.eval ρ (.param nameU) ≤ Level.eval ρ (.param nameW) := by
  refine ⟨⟨(new_pair_iff 0 nameDot namePrime).mpr (by decide +kernel), ?_⟩, ?_⟩
  · rw [List.map_cons, List.map_singleton, kernel_new_pair_iff (by decide +kernel) (by decide +kernel)]
    decide +kernel
  · let constraints : List ReferenceUniverseConstraint :=
      [⟨.imax (.param nameU) (.param nameV), .le, .param nameW⟩]
    let context : ReferenceUniverseContext := ⟨[nameU, nameV, nameW], constraints,
      [[some 0, none, none, none], [some 0, some 0, none, none], [some 0, none, some 0, none],
        [some 0, some 0, some 0, some 0]]⟩
    let ρ : ReferenceModuleName → Nat := fun name => if name = nameU then 5 else 0
    refine ⟨context, ρ, by decide +kernel, ?_, by decide +kernel, by decide +kernel⟩
    intro c hc
    obtain rfl := List.mem_singleton.mp hc
    change Level.eval ρ _ ≤ Level.eval ρ _
    decide +kernel

end Examples

end NpaCore.Reference
