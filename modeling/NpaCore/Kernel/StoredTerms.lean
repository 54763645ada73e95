import NpaCore.Syntax.Occurrences
import NpaCore.Kernel.Atomicity
import NpaCore.Kernel.Soundness

/-!
# The terms that an environment stores

Inference asks the same of every level and of every constant in a term, wherever
they occur: the levels are over the universe parameters, the constant is declared
with that many parameters, and its constraints hold. Admission infers each term
that it stores, in the environment with a part of the declaration's entries.

## Main results

- `inferTerm_checked`: what inference has asked of the occurrences in a term.
- `addDecl_checked`: what admission has asked of the terms it stores.
- `BuiltFrom.wellScoped`: the levels and constants of stored terms are in scope.
-/

namespace NpaCore.Kernel

open NpaCore.Expr NpaCore.Level

/-! ### Inference -/

/-- What inference asks of an occurrence of a constant. -/
def OccurrenceChecked (env : Env) (universeContext : UniverseContext) (name : String)
    (levels : List Level) : Prop :=
  ∃ decl, env.decl name = some decl ∧ decl.universeParams.length = levels.length ∧
    (∀ level ∈ levels, LevelOver universeContext.params level) ∧
    checkConstConstraints env universeContext name decl levels = .ok ()

/-- Inference has gone through the term. -/
def Checked (env : Env) (universeContext : UniverseContext) : Expr → Prop :=
  Every (LevelOver universeContext.params) (OccurrenceChecked env universeContext)

section Infer

variable {env : Env} {universeContext : UniverseContext}

theorem inferConstType_checked {name : String} {levels : List Level} {ty : Expr}
    (h : inferConstType env universeContext name levels = .ok ty) :
    OccurrenceChecked env universeContext name levels := by
  simp only [inferConstType, Result.bind_eq_ok, Result.okOr_eq_ok, Result.ensure_eq_ok,
    Result.forEach_eq_ok] at h
  obtain ⟨decl, declared, _, arity, _, wellFormed, ⟨⟩, constraints, _⟩ := h
  exact ⟨decl, declared, by simpa using arity,
    fun level mem => ensureLevelWf_over (wellFormed level mem), constraints⟩

/-- Every subterm is inferred, whatever the session answers to the questions in between. -/
theorem inferTerm_checked (layout : Layout) (policy : FuelPolicy) (ctx : Ctx) (term : Expr) :
    Run.Ensures (fun _ => True) (inferTerm env layout policy universeContext ctx term)
      fun _ _ => Checked env universeContext term := by
  induction term generalizing ctx with
  | sort level =>
    refine Run.ensures_first (Run.ensures_lift fun _ _ _ wellFormed => ?_)
    exact ensureLevelWf_over wellFormed
  | bvar _ => exact fun _ _ _ _ _ => trivial
  | const name levels =>
    exact Run.ensures_lift fun _ _ _ inferred => inferConstType_checked inferred
  | pi _ ty body ihTy ihBody =>
    refine Run.ensures_both (Run.ensures_first (ihTy ctx)) fun _ => ?_
    exact Run.ensures_first (Run.ensures_first (ihBody (ctx.pushAssumption ty)))
  | lam _ ty body ihTy ihBody =>
    refine Run.ensures_both (Run.ensures_first (ihTy ctx)) fun _ => ?_
    exact Run.ensures_first (ihBody (ctx.pushAssumption ty))
  | app fn arg ihFn ihArg =>
    refine Run.ensures_both (ihFn ctx) fun fnTy => ?_
    refine Run.ensures_bind (R := fun _ _ => True) (fun _ _ _ _ _ => trivial) fun actual => ?_
    cases actual with
    | pi _ ty body => exact Run.ensures_first (Run.ensures_first (ihArg ctx))
    | sort _ | bvar _ | const _ _ | app _ _ | lam _ _ _ => exact Run.ensures_fail

theorem checked_of_ensures {α : Type} {run : Op α} {term : Expr} {session : Session} {a : α}
    (h : Run.Ensures (fun _ => True) run fun _ _ => Checked env universeContext term)
    (returned : (run session).1 = .ok a) : Checked env universeContext term :=
  h session a (run session).2 trivial (Prod.ext returned rfl)

variable {alloc : Allocator} {ctx : Ctx} {term : Expr}

theorem checked_of_infer {ty : Expr}
    (h : env.inferInUniverseContext alloc ctx universeContext term = .ok ty) :
    Checked env universeContext term :=
  checked_of_ensures (inferTerm_checked _ .perQuestion ctx term) h

theorem checked_of_expectSort {level : Level}
    (h : env.expectSortInUniverseContext alloc ctx universeContext term = .ok level) :
    Checked env universeContext term :=
  checked_of_ensures (Run.ensures_first (inferTerm_checked _ .perQuestion ctx term)) h

theorem checked_of_check {expected : Expr}
    (h : env.checkInUniverseContext alloc ctx universeContext term expected = .ok ()) :
    Checked env universeContext term :=
  checked_of_ensures (Run.ensures_first (inferTerm_checked _ .perQuestion ctx term)) h

end Infer

/-! ### Stored terms -/

/-- The types and values that a declaration stores. The recursor of an inductive has other
    universe parameters, and is stored as a declaration of its own. -/
def Decl.terms : Decl → List Expr
  | .axiomDecl _ _ _ ty => [ty]
  | .defDecl _ _ _ ty value _ => [ty, value]
  | .theoremDecl _ _ _ ty proof => [ty, proof]
  | .inductiveDecl _ _ ty data => ty :: data.constructors.map (·.ty)
  | .constructorDecl _ _ ty _ => [ty]
  | .recursorDecl _ _ ty _ _ => [ty]

/-- The constraints that a declaration declares. -/
def Declaration.universeConstraints : Declaration → List UniverseConstraint
  | axiomDecl _ _ universeConstraints _ => universeConstraints
  | defDecl _ _ universeConstraints _ _ _ => universeConstraints
  | theoremDecl _ _ universeConstraints _ _ => universeConstraints
  | inductiveDecl data => data.universeConstraints
  | mutualInductiveBlock block => block.universeConstraints

/-- The term was inferred in its universe context, with some of the entries inserted. -/
def CheckedAmong (env : Env) (entries : List (String × Decl)) (universeParams : List String)
    (universeConstraints : List UniverseConstraint) (term : Expr) : Prop :=
  ∃ added ⊆ entries, ∃ universeContext,
    UniverseContext.new universeParams universeConstraints = .ok universeContext ∧
      Checked (env.insertAll added) universeContext term

/-- The environment has some of the entries inserted. -/
def Among (env : Env) (entries : List (String × Decl)) (candidate : Env) : Prop :=
  ∃ added ⊆ entries, candidate = env.insertAll added

section Among

variable {env candidate next : Env} {entries : List (String × Decl)} {alloc : Allocator}
  {universeContext : UniverseContext} {universeParams : List String}
  {universeConstraints : List UniverseConstraint} {data : InductiveDecl}

theorem Among.insertAll (among : Among env entries candidate) {more : List (String × Decl)}
    (sub : more ⊆ entries) : Among env entries (candidate.insertAll more) := by
  obtain ⟨added, hadded, rfl⟩ := among
  exact ⟨added ++ more, List.append_subset.mpr ⟨hadded, sub⟩, (Env.insertAll_append env _ _).symm⟩

theorem Among.insertDecl (among : Among env entries candidate) {name : String} {decl : Decl}
    (mem : (name, decl) ∈ entries) : Among env entries (candidate.insertDecl name decl) := by
  have single : [(name, decl)] ⊆ entries := by simpa using mem
  exact among.insertAll single

theorem Among.checked (among : Among env entries candidate) {term : Expr}
    (context : UniverseContext.new universeParams universeConstraints = .ok universeContext)
    (h : Checked candidate universeContext term) :
    CheckedAmong env entries universeParams universeConstraints term := by
  obtain ⟨added, hadded, rfl⟩ := among
  exact ⟨added, hadded, universeContext, context, h⟩

theorem checkConstructorWith_checked {positive : Nat → Expr → Result Unit}
    {constructor : ConstructorDecl}
    (h : checkConstructorWith env alloc positive data constructor universeContext = .ok ()) :
    Checked env universeContext constructor.ty := by
  simp only [checkConstructorWith, Result.bind_eq_ok] at h
  obtain ⟨_, sorted, _⟩ := h
  exact checked_of_expectSort sorted

theorem addRecursor_checked (among : Among env entries candidate)
    {check : Env → RecursorDecl → RecursorRules → UniverseContext → Result Unit}
    {generated : RecursorRules}
    (h : candidate.addRecursor alloc universeConstraints check generated data = .ok next) :
    ∀ recursor ∈ data.recursor,
      CheckedAmong env entries recursor.universeParams universeConstraints recursor.ty := by
  intro recursor hrecursor
  rw [Env.addRecursor, hrecursor] at h
  simp only [Result.bind_eq_ok] at h
  obtain ⟨recursorContext, context, _, sorted, _⟩ := h
  exact among.checked context (checked_of_expectSort sorted)

end Among

/-- The terms of a family were inferred. -/
structure FamilyChecked (env : Env) (entries : List (String × Decl))
    (universeConstraints : List UniverseConstraint) (data : InductiveDecl) : Prop where
  family : CheckedAmong env entries data.universeParams universeConstraints (inductiveType data)
  constructors : ∀ constructor ∈ data.constructors,
    CheckedAmong env entries data.universeParams universeConstraints constructor.ty
  recursor : ∀ recursor ∈ data.recursor,
    CheckedAmong env entries recursor.universeParams universeConstraints recursor.ty

/-- Every term of every entry was inferred. -/
def EntriesChecked (env : Env) (entries : List (String × Decl))
    (universeConstraints : List UniverseConstraint) (part : List (String × Decl)) : Prop :=
  ∀ entry ∈ part, ∀ term ∈ entry.2.terms,
    CheckedAmong env entries entry.2.universeParams universeConstraints term

section Families

variable {env next : Env} {entries : List (String × Decl)} {alloc : Allocator}
  {universeConstraints : List UniverseConstraint} {data : InductiveDecl}

theorem FamilyChecked.inductiveEntry (h : FamilyChecked env entries universeConstraints data) :
    EntriesChecked env entries universeConstraints [inductiveEntry data] := by
  intro entry mem term hterm
  cases List.mem_singleton.mp mem
  rcases List.mem_cons.mp hterm with rfl | hterm
  · exact h.family
  · obtain ⟨constructor, hconstructor, rfl⟩ := List.mem_map.mp hterm
    exact h.constructors constructor hconstructor

theorem FamilyChecked.constructorEntries (h : FamilyChecked env entries universeConstraints data) :
    EntriesChecked env entries universeConstraints (constructorEntries data) := by
  intro entry mem term hterm
  obtain ⟨constructor, hconstructor, rfl⟩ := List.mem_map.mp mem
  cases List.mem_singleton.mp hterm
  exact h.constructors constructor hconstructor

theorem FamilyChecked.recursorEntries (h : FamilyChecked env entries universeConstraints data)
    (generated : RecursorRules) :
    EntriesChecked env entries universeConstraints (recursorEntries generated data) := by
  intro entry mem term hterm
  obtain ⟨recursor, hrecursor, rfl⟩ := List.mem_map.mp mem
  cases List.mem_singleton.mp hterm
  exact h.recursor recursor (Option.mem_toList.mp hrecursor)

theorem EntriesChecked.append {xs ys : List (String × Decl)}
    (first : EntriesChecked env entries universeConstraints xs)
    (second : EntriesChecked env entries universeConstraints ys) :
    EntriesChecked env entries universeConstraints (xs ++ ys) := by
  intro entry mem
  rcases List.mem_append.mp mem with mem | mem
  · exact first entry mem
  · exact second entry mem

theorem EntriesChecked.flatMap {α : Type} {items : List α} {part : α → List (String × Decl)}
    (h : ∀ item ∈ items, EntriesChecked env entries universeConstraints (part item)) :
    EntriesChecked env entries universeConstraints (items.flatMap part) := by
  intro entry mem
  obtain ⟨item, hitem, hentry⟩ := List.mem_flatMap.mp mem
  exact h item hitem entry hentry

theorem addInductive_checked (h : env.addInductive alloc data = .ok next) :
    EntriesChecked env (inductiveEntries data) data.universeConstraints (inductiveEntries data) := by
  simp only [Env.addInductive, Result.bind_eq_ok] at h
  obtain ⟨universeContext, context, _, _, _, _, _, sorted, candidate, hconstructors, hrecursor⟩ := h
  have empty : Among env (inductiveEntries data) env := ⟨[], by simp, rfl⟩
  have start : Among env (inductiveEntries data) (env.insertInductive data) :=
    empty.insertDecl (by simp [inductiveEntries, inductiveEntry])
  -- the loop over the constructors stays among the entries
  have step : ∀ constructor ∈ data.constructors, ∀ before after,
      (do
        checkConstructorDecl before alloc data constructor universeContext
        .ok (before.insertConstructor data constructor)) = .ok after →
      Among env (inductiveEntries data) before → Among env (inductiveEntries data) after := by
    intro constructor hconstructor before after hstep among
    simp only [Result.bind_eq_ok, Except.ok.injEq] at hstep
    obtain ⟨_, _, rfl⟩ := hstep
    refine among.insertDecl ?_
    simp only [inductiveEntries, List.mem_append]
    exact .inl (.inr (List.mem_map_of_mem hconstructor))
  have family : FamilyChecked env (inductiveEntries data) data.universeConstraints data := by
    refine ⟨empty.checked context (checked_of_expectSort sorted), ?_, ?_⟩
    · intro constructor hconstructor
      obtain ⟨before, after, among, hstep⟩ :=
        Result.foldEach_step data.constructors step hconstructors start hconstructor
      simp only [Result.bind_eq_ok] at hstep
      obtain ⟨_, checked, _⟩ := hstep
      exact among.checked context (checkConstructorWith_checked checked)
    · exact addRecursor_checked (Result.foldEach_preserves data.constructors step hconstructors start)
        hrecursor
  exact (family.inductiveEntry.append family.constructorEntries).append
    (family.recursorEntries (generatedRecursorRules data))

/-- The families of an admitted block have its universe parameters. -/
theorem ensureSharedTelescopes_params {block : MutualInductiveBlock} {first : InductiveDecl}
    {universeContext : UniverseContext}
    (h : Env.ensureSharedTelescopes block first universeContext = .ok ()) :
    ∀ data ∈ block.inductives, data.universeParams = block.universeParams := by
  intro data hdata
  have shared := Result.forEach_eq_ok.mp h data hdata
  simp only [Result.bind_eq_ok, Result.ensure_eq_ok, Bool.and_eq_true, decide_eq_true_eq] at shared
  obtain ⟨_, ⟨⟨same, _⟩, _⟩, _⟩ := shared
  exact same

theorem addMutualInductive_checked {block : MutualInductiveBlock}
    (h : env.addMutualInductive alloc block = .ok next) :
    EntriesChecked env (mutualEntries block) block.universeConstraints (mutualEntries block) := by
  simp only [Env.addMutualInductive, Result.bind_eq_ok, Except.ok.injEq] at h
  obtain ⟨first, _, universeContext, context, _, _, _, shared, families, hfamilies, middle,
    hconstructors, candidate, hrecursors, _⟩ := h
  have params := ensureSharedTelescopes_params shared
  have familyMem : ∀ data ∈ block.inductives, inductiveEntry data ∈ mutualEntries block := by
    intro data hdata
    simp only [mutualEntries, List.mem_append]
    exact .inl (.inl (List.mem_map_of_mem hdata))
  have constructorMem : ∀ data ∈ block.inductives,
      constructorEntries data ⊆ mutualEntries block := by
    intro data hdata entry hentry
    simp only [mutualEntries, List.mem_append]
    exact .inl (.inr (List.mem_flatMap.mpr ⟨data, hdata, hentry⟩))
  have recursorMem : ∀ data ∈ block.inductives,
      recursorEntries (generatedMutualRecursorRules block data) data ⊆ mutualEntries block := by
    intro data hdata entry hentry
    simp only [mutualEntries, List.mem_append]
    exact .inr (List.mem_flatMap.mpr ⟨data, hdata, hentry⟩)
  -- each of the three loops stays among the entries of the block
  have familyStep : ∀ data ∈ block.inductives, ∀ before after,
      Env.addFamily alloc universeContext before data = .ok after →
      Among env (mutualEntries block) before → Among env (mutualEntries block) after := by
    intro data hdata before after hstep among
    rw [addFamily_eq hstep]
    exact among.insertDecl (familyMem data hdata)
  have constructorStep : ∀ data ∈ block.inductives, ∀ constructor ∈ data.constructors,
      ∀ before after,
      Env.addMutualConstructor alloc block universeContext data before constructor = .ok after →
      Among env (mutualEntries block) before → Among env (mutualEntries block) after := by
    intro data hdata constructor hconstructor before after hstep among
    simp only [Env.addMutualConstructor, Result.bind_eq_ok, Except.ok.injEq] at hstep
    obtain ⟨_, _, rfl⟩ := hstep
    exact among.insertDecl (constructorMem data hdata (List.mem_map_of_mem hconstructor))
  have constructorsStep : ∀ data ∈ block.inductives, ∀ before after,
      Env.addMutualConstructors alloc block universeContext before data = .ok after →
      Among env (mutualEntries block) before → Among env (mutualEntries block) after :=
    fun data hdata _ _ hloop => Result.foldEach_preserves data.constructors
      (constructorStep data hdata) hloop
  have recursorStep : ∀ data ∈ block.inductives, ∀ before after,
      Env.addMutualRecursor alloc block before data = .ok after →
      Among env (mutualEntries block) before → Among env (mutualEntries block) after := by
    intro data hdata before after hstep among
    rw [addRecursor_eq hstep]
    exact among.insertAll (recursorMem data hdata)
  have atStart : Among env (mutualEntries block) env := ⟨[], by simp, rfl⟩
  have atFamilies := Result.foldEach_preserves block.inductives familyStep hfamilies atStart
  have atMiddle := Result.foldEach_preserves block.inductives constructorsStep hconstructors
    atFamilies
  have checked : ∀ data ∈ block.inductives,
      FamilyChecked env (mutualEntries block) block.universeConstraints data := by
    intro data hdata
    rw [← params data hdata] at context
    refine ⟨?_, ?_, ?_⟩
    · obtain ⟨before, after, among, hstep⟩ :=
        Result.foldEach_step block.inductives familyStep hfamilies atStart hdata
      simp only [Env.addFamily, Result.bind_eq_ok] at hstep
      obtain ⟨_, sorted, _⟩ := hstep
      exact among.checked context (checked_of_expectSort sorted)
    · intro constructor hconstructor
      obtain ⟨before, after, among, hloop⟩ :=
        Result.foldEach_step block.inductives constructorsStep hconstructors atFamilies hdata
      obtain ⟨inner, _, among, hstep⟩ := Result.foldEach_step data.constructors
        (constructorStep data hdata) hloop among hconstructor
      simp only [Env.addMutualConstructor, Result.bind_eq_ok] at hstep
      obtain ⟨_, passed, _⟩ := hstep
      exact among.checked context (checkConstructorWith_checked passed)
    · obtain ⟨before, after, among, hstep⟩ :=
        Result.foldEach_step block.inductives recursorStep hrecursors atMiddle hdata
      exact addRecursor_checked among hstep
  refine EntriesChecked.append (EntriesChecked.append ?_ ?_) ?_
  · rw [← List.flatMap_singleton' (block.inductives.map inductiveEntry), List.flatMap_map]
    exact EntriesChecked.flatMap fun data hdata => (checked data hdata).inductiveEntry
  · exact EntriesChecked.flatMap fun data hdata => (checked data hdata).constructorEntries
  · exact EntriesChecked.flatMap fun data hdata => (checked data hdata).recursorEntries _

theorem addDecl_checked {declaration : Declaration}
    (h : env.addDecl alloc declaration = .ok next) :
    EntriesChecked env declaration.entries declaration.universeConstraints
      declaration.entries := by
  have empty : ∀ entries, Among env entries env := fun _ => ⟨[], by simp, rfl⟩
  cases declaration with
  | axiomDecl name universeParams universeConstraints ty =>
    simp only [Env.addDecl, Env.addAxiomWithUniverseConstraints, Result.bind_eq_ok] at h
    obtain ⟨_, _, universeContext, context, _, sorted, _⟩ := h
    intro entry mem term hterm
    cases List.mem_singleton.mp mem
    cases List.mem_singleton.mp hterm
    exact (empty _).checked context (checked_of_expectSort sorted)
  | defDecl name universeParams universeConstraints ty value reducibility =>
    simp only [Env.addDecl, Env.addDefWithUniverseConstraints, Result.bind_eq_ok] at h
    obtain ⟨_, _, universeContext, context, _, sorted, _, typed, _⟩ := h
    intro entry mem term hterm
    cases List.mem_singleton.mp mem
    rcases List.mem_pair.mp hterm with rfl | rfl
    · exact (empty _).checked context (checked_of_expectSort sorted)
    · exact (empty _).checked context (checked_of_check typed)
  | theoremDecl name universeParams universeConstraints ty proof =>
    simp only [Env.addDecl, Env.addTheoremWithUniverseConstraints, Result.bind_eq_ok] at h
    obtain ⟨_, _, universeContext, context, _, sorted, _, typed, _⟩ := h
    intro entry mem term hterm
    cases List.mem_singleton.mp mem
    rcases List.mem_pair.mp hterm with rfl | rfl
    · exact (empty _).checked context (checked_of_expectSort sorted)
    · exact (empty _).checked context (checked_of_check typed)
  | inductiveDecl data => exact addInductive_checked h
  | mutualInductiveBlock block => exact addMutualInductive_checked h

end Families

/-! ### Runs -/

/-- An environment reached by successful `add_*` calls, when the declarations have the
    property. -/
inductive BuiltFrom (P : Declaration → Prop) : Env → Prop
  | start (options : KernelExecutionOptions) : BuiltFrom P (Env.withExecutionOptions options)
  | add {env next alloc declaration} (before : BuiltFrom P env) (meets : P declaration)
      (h : env.addDecl alloc declaration = .ok next) : BuiltFrom P next

theorem Built.builtFrom {P : List InductiveDecl → Prop} {env : Env} (built : Built P env) :
    BuiltFrom (fun _ => True) env := by
  induction built with
  | start options => exact .start options
  | @addAxiom _ _ alloc name universeParams universeConstraints ty _ h ih =>
    have added : Env.addDecl _ alloc (.axiomDecl name universeParams universeConstraints ty) = _ := h
    exact .add ih trivial added
  | @addDef _ _ alloc name universeParams universeConstraints ty value reducibility _ h ih =>
    have added : Env.addDecl _ alloc
        (.defDecl name universeParams universeConstraints ty value reducibility) = _ := h
    exact .add ih trivial added
  | @addTheorem _ _ alloc name universeParams universeConstraints ty proof _ h ih =>
    have added : Env.addDecl _ alloc
        (.theoremDecl name universeParams universeConstraints ty proof) = _ := h
    exact .add ih trivial added
  | @addInductive _ _ alloc data _ _ h ih =>
    have added : Env.addDecl _ alloc (.inductiveDecl data) = _ := h
    exact .add ih trivial added
  | @addMutualInductive _ _ alloc block _ _ h ih =>
    have added : Env.addDecl _ alloc (.mutualInductiveBlock block) = _ := h
    exact .add ih trivial added

theorem decl_insertAll_cases {env : Env} {added : List (String × Decl)} {name : String}
    {decl : Decl} (h : (env.insertAll added).decl name = some decl) :
    (name, decl) ∈ added ∨ env.decl name = some decl := by
  induction added generalizing env with
  | nil => exact .inr h
  | cons entry added ih =>
    rw [Env.insertAll, List.foldl_cons] at h
    rcases ih h with later | here
    · exact .inl (List.mem_cons_of_mem _ later)
    · rw [Env.decl_insertDecl] at here
      split at here
      next same =>
        cases here
        exact .inl (by simp [same])
      next => exact .inr here

section Admitted

variable {env next : Env} {declaration : Declaration} {name : String} {decl : Decl}

theorem Admitted.decl_old (admitted : Admitted env declaration next)
    (h : env.decl name = some decl) : next.decl name = some decl := by
  have old : name ∉ declaration.names := by
    intro new
    rw [(admitted.fresh name new).1] at h
    cases h
  rw [admitted.kept name old, h]

theorem Admitted.decl_cases (admitted : Admitted env declaration next)
    (h : next.decl name = some decl) :
    (name, decl) ∈ declaration.entries ∨ env.decl name = some decl := by
  by_cases new : name ∈ declaration.names
  · obtain ⟨⟨_, added⟩, mem, rfl⟩ := List.mem_map.mp new
    have found := admitted.added _ mem
    rw [h] at found
    cases found
    exact .inl mem
  · rw [admitted.kept name new] at h
    exact .inr h

/-- What is declared while the entries are inserted is declared at the end. -/
theorem Admitted.decl_among (admitted : Admitted env declaration next)
    {added : List (String × Decl)} (sub : added ⊆ declaration.entries)
    (h : (env.insertAll added).decl name = some decl) : next.decl name = some decl := by
  rcases decl_insertAll_cases h with new | old
  · exact admitted.added _ (sub new)
  · exact admitted.decl_old old

end Admitted

section Runs

variable {P : Declaration → Prop} {env : Env}

theorem BuiltFrom.groupsDeclared (built : BuiltFrom P env) : GroupsDeclared env := by
  induction built with
  | start options => exact fun _ _ => rfl
  | add _ _ h ih => exact (addDecl_admitted ih h).groupsDeclared ih

/-- An invariant of the environments that admission leaves, from the empty environment on. -/
theorem BuiltFrom.induct {I : Env → Prop} (built : BuiltFrom P env)
    (start : ∀ options, I (Env.withExecutionOptions options))
    (step : ∀ env next alloc declaration, GroupsDeclared env → P declaration →
      env.addDecl alloc declaration = .ok next → Admitted env declaration next → I env → I next) :
    I env := by
  induction built with
  | start options => exact start options
  | @add env next alloc declaration before meets h ih =>
    exact step env next alloc declaration before.groupsDeclared meets h
      (addDecl_admitted before.groupsDeclared h) ih

/-- The levels are over the parameters, and the constants are declared with as many. -/
def InScope (env : Env) (universeParams : List String) : Expr → Prop :=
  Every (LevelOver universeParams) fun name levels =>
    (∀ level ∈ levels, LevelOver universeParams level) ∧
      ∃ decl, env.decl name = some decl ∧ decl.universeParams.length = levels.length

/-- Every stored term is in scope of its own universe parameters. -/
def Env.WellScoped (env : Env) : Prop :=
  ∀ name decl, env.decl name = some decl → ∀ term ∈ decl.terms,
    InScope env decl.universeParams term

theorem BuiltFrom.wellScoped (built : BuiltFrom P env) : env.WellScoped := by
  refine built.induct ?_ ?_
  · intro options name decl hdecl
    cases hdecl
  · intro env next alloc declaration _ _ h admitted before name decl hdecl term hterm
    rcases admitted.decl_cases hdecl with new | old
    · obtain ⟨added, sub, universeContext, context, checked⟩ :=
        addDecl_checked h (name, decl) new term hterm
      obtain ⟨_, accepted⟩ := new_accepted context
      have params : universeContext.params = decl.universeParams := accepted.params_eq
      rw [Checked, params] at checked
      refine Every.mono checked (fun _ inScope => inScope) ?_
      rintro constant levels ⟨target, declared, arity, inScope, _⟩
      rw [params] at inScope
      exact ⟨inScope, target, admitted.decl_among sub declared, arity⟩
    · refine Every.mono (before name decl old term hterm) (fun _ inScope => inScope) ?_
      rintro constant levels ⟨inScope, target, declared, arity⟩
      exact ⟨inScope, target, admitted.decl_old declared, arity⟩

end Runs

end NpaCore.Kernel
