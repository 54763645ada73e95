import NpaCore.Kernel.ConstraintEnforcement
import NpaCore.Kernel.Soundness
import NpaCore.Kernel.Weakening

/-!
# Growing environments

An environment grows by admitted declarations. What is declared stays as it is, with its group,
so conversion and typing are kept: delta and iota find what they found, and no new family can
make a field recursive that was not, as the families of a block are declared together.

## Main results

* `HasType.mono`: typing in a larger environment.
* `storedTerms_closed`: the stored terms have no loose variables.
* `typing_stable`: a typing holds in every environment that grows out of its own, and under more
  assumptions.
-/

namespace NpaCore.Kernel

open NpaCore.Expr

/-! ### Families of a block -/

/-- Every family of a block is declared. -/
def GroupsComplete (env : Env) : Prop :=
  ∀ name group, env.mutualGroup name = some group → ∀ family ∈ group.inductives,
    ∃ data, env.inductiveData family = .ok data

variable {declared : InductiveDecl}

section Families

variable {base env : Env} {inductiveName recursorName familyRecursor : String} {data : InductiveDecl}

theorem FamilyRecursor.mono (keeps : Keeps base env)
    (known : base.inductiveData inductiveName = .ok declared)
    (h : FamilyRecursor base inductiveName recursorName data familyRecursor) :
    FamilyRecursor env inductiveName recursorName data familyRecursor := by
  obtain ⟨_, _, _, found⟩ := inductiveData_eq_ok.mp known
  rw [FamilyRecursor] at h ⊢
  rw [keeps.group inductiveName _ found]
  cases grouped : base.mutualGroup inductiveName with
  | none =>
    rw [grouped] at h
    exact ⟨keeps.inductiveData h.1, h.2⟩
  | some group =>
    rw [grouped] at h
    obtain ⟨family, mem, here, recursor⟩ := h
    exact ⟨family, mem, keeps.inductiveData here, recursor⟩

/-- A field is compared with no other families than before. -/
theorem FieldFamily.old (keeps : Keeps base env) (complete : GroupsComplete base)
    (known : base.inductiveData inductiveName = .ok declared)
    (h : FieldFamily env inductiveName data) : FieldFamily base inductiveName data := by
  obtain ⟨_, _, _, found⟩ := inductiveData_eq_ok.mp known
  have same : ∀ family, env.inductiveData family = .ok data →
      (∃ other, base.inductiveData family = .ok other) → base.inductiveData family = .ok data := by
    rintro family here ⟨other, there⟩
    rw [keeps.inductiveData there] at here
    cases here
    exact there
  rw [FieldFamily] at h ⊢
  rw [keeps.group inductiveName _ found] at h
  cases grouped : base.mutualGroup inductiveName with
  | none =>
    rw [grouped] at h
    exact same inductiveName h ⟨declared, known⟩
  | some group =>
    rw [grouped] at h
    obtain ⟨family, mem, here⟩ := h
    exact ⟨family, mem, same family here (complete inductiveName group grouped family mem)⟩

end Families

/-! ### Conversion -/

section Conversion

variable {base env : Env}

theorem mutualConstructorOffset_mono (keeps : Keeps base env) {target : String} {names : List String}
    {start offset : Nat} (h : mutualConstructorOffset base target start names = .ok offset) :
    mutualConstructorOffset env target start names = .ok offset := by
  induction names generalizing start with
  | nil => cases h
  | cons name rest ih =>
    rw [mutualConstructorOffset] at h ⊢
    split at h
    next here =>
      rw [if_pos here]
      exact h
    next other =>
      rw [if_neg other]
      obtain ⟨data, found, below⟩ := Result.bind_eq_ok.mp h
      rw [keeps.inductiveData found]
      exact ih below

theorem blockConstructorOffset_mono (keeps : Keeps base env) {name : String} {data : InductiveDecl}
    (known : base.inductiveData name = .ok data) {offset : Nat}
    (h : blockConstructorOffset base (base.mutualGroup name) name = .ok offset) :
    blockConstructorOffset env (env.mutualGroup name) name = .ok offset := by
  obtain ⟨_, _, _, found⟩ := inductiveData_eq_ok.mp known
  rw [keeps.group name _ found]
  cases grouped : base.mutualGroup name with
  | none =>
    rw [grouped] at h
    exact h
  | some group =>
    rw [grouped] at h
    exact mutualConstructorOffset_mono keeps h

theorem IotaField.mono (keeps : Keeps base env) (complete : GroupsComplete base) {spine : IotaSpine}
    (known : base.inductiveData spine.inductiveName = .ok declared)
    {domain field : Expr} {ctxLen : Nat} {args : List Expr}
    (h : IotaField base spine domain field ctxLen args) :
    IotaField env spine domain field ctxLen args := by
  cases h with
  | plain apart => exact .plain fun data here => apart data (here.old keeps complete known)
  | «recursive» family occurrence => exact .recursive (family.mono keeps known) occurrence

theorem IotaFields.mono (keeps : Keeps base env) (complete : GroupsComplete base)
    {spine : IotaSpine}
    (known : base.inductiveData spine.inductiveName = .ok declared) {ctxLen : Nat}
    {fields : List (Expr × Expr)} {args : List Expr} (h : IotaFields base spine ctxLen fields args) :
    IotaFields env spine ctxLen fields args := by
  induction h with
  | nil => exact .nil
  | cons head _ ih => exact .cons (head.mono keeps complete known) ih

theorem Iota.mono (keeps : Keeps base env) (complete : GroupsComplete base) {lhs rhs : Expr}
    (h : Iota base lhs rhs) : Iota env lhs rhs := by
  cases h with
  | intro declared family owned major position premise params saturated fields =>
    exact .intro (keeps.decl _ _ declared) (keeps.inductiveData family) owned major
      (blockConstructorOffset_mono keeps family position) premise params saturated
      (fields.mono keeps complete family)

theorem Conv.mono (keeps : Keeps base env) (complete : GroupsComplete base) {a b : Expr}
    (h : Conv base a b) : Conv env a b := by
  induction h with
  | refl e => exact .refl e
  | symm _ ih => exact .symm ih
  | trans _ _ ih ih' => exact .trans ih ih'
  | sort same => exact .sort same
  | const same => exact .const same
  | app _ _ ih ih' => exact .app ih ih'
  | lam _ _ ih ih' => exact .lam ih ih'
  | pi _ _ ih ih' => exact .pi ih ih'
  | beta => exact .beta
  | delta found => exact .delta (keeps.decl _ _ found)
  | iota step => exact .iota (step.mono keeps complete)

end Conversion

/-! ### Typing -/

section Typing

variable {base env : Env} {universeContext : UniverseContext}

/-- The family of a declaration is declared. -/
theorem ConstraintsHold.mono (keeps : Keeps base env) (families : FamiliesDeclared base)
    {name : String} {decl : Decl} (declared : base.decl name = some decl) {levels : List Level}
    (h : ConstraintsHold base universeContext decl levels) :
    ConstraintsHold env universeContext decl levels := by
  obtain ⟨params, constraints, context, holds⟩ := h
  refine ⟨params, constraints, ?_, holds⟩
  apply declConstraintContext_mono _ keeps.decl context
  intro family mem
  obtain ⟨found, hfound⟩ := families name decl declared family mem
  exact keeps.group family found hfound

theorem HasType.mono (keeps : Keeps base env) (complete : GroupsComplete base)
    (families : FamiliesDeclared base) {ctx : Ctx} {e ty : Expr}
    (h : HasType base universeContext ctx e ty) : HasType env universeContext ctx e ty := by
  induction h with
  | sort inScope => exact .sort inScope
  | bvar found => exact .bvar found
  | const declared arity wellFormed constraints =>
    exact .const (keeps.decl _ _ declared) arity wellFormed
      (constraints.mono keeps families declared)
  | pi _ _ ih ih' => exact .pi ih ih'
  | lam _ _ ih ih' => exact .lam ih ih'
  | app _ _ ih ih' => exact .app ih ih'
  | conv _ converts ih => exact .conv ih (converts.mono keeps complete)

end Typing

/-! ### Growth -/

/-- Environments that successful calls lead to. -/
inductive Grown (env : Env) : Env → Prop
  | refl : Grown env env
  | add {middle next alloc declaration} : Grown env middle →
    middle.addDecl alloc declaration = .ok next → Grown env next

section Growth

variable {env next : Env} {declaration : Declaration} {P : Declaration → Prop}

theorem Admitted.keeps (admitted : Admitted env declaration next) : Keeps env next := by
  refine ⟨fun _ _ declared => admitted.decl_old declared, ?_⟩
  intro name decl declared
  have ungrouped : declaration.group name = none := by
    rw [Option.eq_none_iff_forall_not_mem]
    intro group grouped
    rw [(admitted.fresh name (mem_names_of_group grouped)).1] at declared
    cases declared
  rw [admitted.groups, ungrouped, Option.none_or]

theorem Keeps.refl (env : Env) : Keeps env env := ⟨fun _ _ h => h, fun _ _ _ => rfl⟩

theorem Keeps.trans {middle : Env} (first : Keeps env middle) (second : Keeps middle next) :
    Keeps env next := by
  constructor
  · intro name decl declared
    exact second.decl name decl (first.decl name decl declared)
  · intro name decl declared
    exact (second.group name decl (first.decl name decl declared)).trans
      (first.group name decl declared)

/-- The families of a new block are declared with it, those of an old one were before. -/
theorem Admitted.groupsComplete (admitted : Admitted env declaration next)
    (complete : GroupsComplete env) : GroupsComplete next := by
  intro name group grouped family mem
  rw [admitted.groups] at grouped
  cases own : declaration.group name with
  | none =>
    rw [own, Option.none_or] at grouped
    obtain ⟨data, found⟩ := complete name group grouped family mem
    exact ⟨data, admitted.keeps.inductiveData found⟩
  | some block =>
    rw [own, Option.some_or] at grouped
    cases grouped
    cases declaration with
    | mutualInductiveBlock block =>
      simp only [Declaration.group, Option.ite_none_right_eq_some] at own
      obtain rfl := Option.some.inj own.2
      obtain ⟨data, here, rfl⟩ := List.mem_map.mp mem
      have entry : inductiveEntry data ∈ (Declaration.mutualInductiveBlock block).entries := by
        rw [Declaration.entries, mutualEntries]
        exact List.mem_append_left _ (List.mem_append_left _ (List.mem_map_of_mem here))
      exact ⟨data, inductiveData_eq_ok.mpr ⟨_, _, _, admitted.added _ entry⟩⟩
    | axiomDecl | defDecl | theoremDecl | inductiveDecl => cases own

theorem BuiltFrom.groupsComplete (built : BuiltFrom P env) : GroupsComplete env := by
  refine built.induct ?_ ?_
  · intro options name group grouped
    cases grouped
  · intro env next alloc declaration _ _ _ admitted complete
    exact admitted.groupsComplete complete

theorem BuiltFrom.familiesDeclared (built : BuiltFrom P env) : FamiliesDeclared env := by
  refine built.induct ?_ ?_
  · intro options name decl declared
    cases declared
  · intro env next alloc declaration _ _ _ admitted families
    exact admitted.familiesDeclared families

/-- By induction on the calls: what is declared stays, and the groups stay declared. -/
theorem Grown.keeps (grown : Grown env next) (declared : GroupsDeclared env) :
    Keeps env next ∧ GroupsDeclared next := by
  induction grown with
  | refl => exact ⟨.refl env, declared⟩
  | add _ h ih =>
    have admitted := addDecl_admitted ih.2 h
    exact ⟨ih.1.trans admitted.keeps, admitted.groupsDeclared ih.2⟩

/-- Whatever has been admitted, no term that the environment stores has a loose variable, so it
    stays as it is wherever reduction copies it to. -/
theorem storedTerms_closed (built : BuiltFrom P env) {name : String} {decl : Decl}
    (declared : env.decl name = some decl) :
    ∀ term ∈ decl.terms, term.ClosedAt 0 ∧
      ∀ amount depth, NpaCore.Expr.lift amount depth term = term := by
  intro term stored
  have closed := built.closed name decl declared term stored
  exact ⟨closed, fun amount depth => lift_closed (closed.mono (Nat.zero_le depth))⟩

/-- Whatever declarations are admitted afterwards, a typing in an environment that was built by
    admissions holds in the grown environment, and there also after more assumptions. -/
theorem typing_stable {universeContext : UniverseContext} {locals : List Expr} {e ty : Expr}
    (built : BuiltFrom P env) (grown : Grown env next)
    (h : HasType env universeContext ⟨locals⟩ e ty) (extra : List Expr) :
    HasType next universeContext ⟨locals ++ extra⟩ (NpaCore.Expr.lift extra.length 0 e)
      (NpaCore.Expr.lift extra.length 0 ty) := by
  have kept := (grown.keeps built.groupsDeclared).1
  have weakened := HasType.weaken built.closed h extra
  exact weakened.mono kept built.groupsComplete built.familiesDeclared

end Growth

/-- The type of an admitted axiom. -/
theorem storedTerms_closed_at_ordered :
    orderedEnv.decl "c" = some (.axiomDecl "c" ["a", "b"] [⟨.param "a", .le, .param "b"⟩]
      (.sort .zero)) ∧
      ∀ term ∈ [(.sort .zero : Expr)], term.ClosedAt 0 ∧
        ∀ amount depth, NpaCore.Expr.lift amount depth term = term := by
  have declared : orderedEnv.decl "c" = some (.axiomDecl "c" ["a", "b"]
      [⟨.param "a", .le, .param "b"⟩] (.sort .zero)) :=
    (Env.decl_insertDecl _ _ _ _).trans (if_pos rfl)
  exact ⟨declared, storedTerms_closed (orderedEnv_built fun _ => True).builtFrom declared⟩

/-- Under two assumptions and after an axiom has been admitted, `Prop` still is of type `Type`. -/
theorem typing_stable_at_prop :
    HasType orderedEnv ⟨[], [], withLowerBounds 0⟩ ⟨[] ++ [.sort .zero, .bvar 0]⟩ (.sort .zero)
      (.sort (.succ .zero)) := by
  have accepted : Env.new.addDecl noReuse
      (.axiomDecl "c" ["a", "b"] [⟨.param "a", .le, .param "b"⟩] (.sort .zero)) = .ok orderedEnv :=
    Result.ok_of_toOption (by decide +kernel)
  have typed : HasType Env.new ⟨[], [], withLowerBounds 0⟩ ⟨[]⟩ (.sort .zero)
      (.sort (.succ .zero)) := by
    apply HasType.sort
    intro param mem
    cases mem
  exact typing_stable (BuiltFrom.start (P := fun _ => True) .memoOff) (.add .refl accepted) typed
    [.sort .zero, .bvar 0]

end NpaCore.Kernel
