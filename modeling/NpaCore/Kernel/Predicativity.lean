import NpaCore.Kernel.ConstructorOccurrences
import NpaCore.Kernel.FuelLaws
import NpaCore.Kernel.RecursiveOracle
import NpaCore.Kernel.Soundness

/-!
# The universes of constructor fields

A family outside `Prop` is no smaller than the types of its constructors' fields:
`check_constructor_universe_bounds` asks `entails_level_le` about each of them. The
levels are those that inference gives the fields in the environment in which the
constructor is checked; inference with other fuel or another memo gives no other
(`expectSortTerm_agree`).

## Main result

`fieldsBounded_iff`: under given universe parameters and constraints, every accepted
family is bounded in this way exactly when entailment is sound for the constraints.
-/

namespace NpaCore.Kernel

open NpaCore.Expr NpaCore.Level

/-! ### Bounded fields -/

def Env.insertConstructors (env : Env) (data : InductiveDecl)
    (constructors : List ConstructorDecl) : Env :=
  constructors.foldl (fun candidate constructor => candidate.insertConstructor data constructor) env

/-- The environment in which a constructor is checked: the families are inserted, and the
    constructors of the families before its own and those before itself. -/
def constructorEnv (env : Env) (families before : List InductiveDecl) (data : InductiveDecl)
    (earlier : List ConstructorDecl) : Env :=
  Env.insertConstructors
    (before.foldl (fun candidate family => candidate.insertConstructors family family.constructors)
      (families.foldl Env.insertInductive env))
    data earlier

/-- Whatever level inference finds for the type of a field is at most the family's sort. -/
def FieldsBounded (candidate : Env) (universeContext : UniverseContext) (ρ : String → Nat)
    (data : InductiveDecl) (constructor : ConstructorDecl) : Prop :=
  let domains := constructor.ty.peelPiDomains.1
  ∀ fieldIndex domain, domains[data.params.length + fieldIndex]? = some domain →
    ∀ layout policy session level, OwnMemo candidate session →
      (expectSortTerm candidate layout policy universeContext
        ⟨domains.take (data.params.length + fieldIndex)⟩ domain session).1 = .ok level →
      level.eval ρ ≤ data.sort.eval ρ

/-- Under every valuation of the constraints, each family whose sort is not zero bounds the
    fields of its constructors. -/
def Predicative (env : Env) (universeContext : UniverseContext)
    (constraints : List UniverseConstraint) (families : List InductiveDecl) : Prop :=
  ∀ ρ, Satisfies ρ constraints → ∀ before data after, families = before ++ data :: after →
    data.sort.eval ρ ≠ 0 → ∀ earlier constructor later,
      data.constructors = earlier ++ constructor :: later →
      FieldsBounded (constructorEnv env families before data earlier) universeContext ρ data
        constructor

/-! ### The check of one constructor -/

section Check

variable {env : Env} {alloc : Allocator} {universeContext : UniverseContext}
  {data : InductiveDecl} {constructor : ConstructorDecl}

/-- The loop has found a level for every domain, and entailed the bound of each field. -/
theorem universeBoundsFrom_spec {inductiveSort : Level} {layout : Layout} {domains : List Expr}
    {start : Nat} {ctx : Ctx} {s t : Session} (faithful : FaithfulSession env s)
    (h : universeBoundsFrom env data constructor universeContext inductiveSort layout domains start
      ctx s = (.ok (), t)) {index : Nat} {domain : Expr} (found : domains[index]? = some domain) :
    ∃ session after level, FaithfulSession env session ∧
      expectSortTerm env layout .pooled universeContext ⟨ctx.locals ++ domains.take index⟩ domain
        session = (.ok level, after) ∧
      (data.params.length ≤ start + index →
        universeContext.entailsLevelLe level inductiveSort = .ok true) := by
  induction domains generalizing start ctx s index with
  | nil => cases found
  | cons first rest ih =>
    obtain ⟨level, middle, inferred, h⟩ := Run.bind_eq_ok.mp h
    have kept : FaithfulSession env middle :=
      (expectSortTerm_agree _ _ _ _ _ _ _ faithful faithful inferred inferred).2.1
    -- the bound of a field has been entailed before the loop goes on
    have went : (data.params.length ≤ start →
        universeContext.entailsLevelLe level inductiveSort = .ok true) ∧
        universeBoundsFrom env data constructor universeContext inductiveSort layout rest
          (start + 1) (ctx.pushAssumption first) middle = (.ok (), t) := by
      split at h
      next field =>
        obtain ⟨bounded, same, answer, h⟩ := Run.bind_eq_ok.mp h
        obtain ⟨u, same', checked, h⟩ := Run.bind_eq_ok.mp h
        obtain ⟨entailed, rfl⟩ := Prod.mk.inj answer
        obtain ⟨ensured, rfl⟩ := Prod.mk.inj checked
        rw [Result.ensure_eq_ok] at ensured
        rw [ensured] at entailed
        exact ⟨fun _ => entailed, h⟩
      next parameter => exact ⟨fun field => absurd field parameter, h⟩
    obtain ⟨entailed, h⟩ := went
    cases index with
    | zero =>
      cases found
      refine ⟨s, middle, level, faithful, ?_, fun field => entailed (by omega)⟩
      simpa using inferred
    | succ index =>
      obtain ⟨session, after, fieldLevel, own, inferred, bound⟩ := ih kept h found
      refine ⟨session, after, fieldLevel, own, ?_, fun field => bound (by omega)⟩
      simpa [Ctx.pushAssumption, List.append_assoc] using inferred

theorem checkConstructorWith_bounded {positive : Nat → Expr → Result Unit} {ρ : String → Nat}
    (sound : ∀ lhs rhs, universeContext.entailsLevelLe lhs rhs = .ok true →
      lhs.eval ρ ≤ rhs.eval ρ)
    (h : checkConstructorWith env alloc positive data constructor universeContext = .ok ())
    (proper : data.sort.eval ρ ≠ 0) :
    FieldsBounded env universeContext ρ data constructor := by
  simp only [checkConstructorWith, Result.bind_eq_ok] at h
  obtain ⟨_, _, _, _, _, _, _, _, h⟩ := h
  unfold checkConstructorUniverseBounds at h
  dsimp only at h
  split at h
  next impredicative =>
    -- a sort that normalises to zero is zero under every valuation
    refine absurd ?_ proper
    rw [← normalizeLevel_eval, impredicative, eval]
  next =>
    intro fieldIndex domain found layout policy session level own inferred
    have none := faithful_none env whnfFuelLimit defeqFuelLimit
    obtain ⟨before, after, fieldLevel, faithful, checked, bound⟩ :=
      universeBoundsFrom_spec none (Prod.ext h rfl) found
    have same : fieldLevel = level :=
      (expectSortTerm_agree _ _ _ _ _ _ _ faithful own.faithful checked
        (Prod.ext inferred rfl)).1
    rw [← same, ← normalizeLevel_eval ρ data.sort]
    exact sound _ _ (bound (by omega))

end Check

/-! ### Accepted families -/

section Accepted

variable {env next : Env} {alloc : Allocator} {params : List String}
  {constraints : List UniverseConstraint} {context : UniverseContext}

theorem addInductive_predicative {data : InductiveDecl} (harmless : IMaxHarmless constraints)
    (built : UniverseContext.new params constraints = .ok context)
    (sameParams : data.universeParams = params) (same : data.universeConstraints = constraints)
    (h : env.addInductive alloc data = .ok next) : Predicative env context constraints [data] := by
  subst sameParams same
  simp only [Env.addInductive, Result.bind_eq_ok] at h
  obtain ⟨universeContext, hcontext, _, _, _, _, _, _, candidate, hconstructors, _⟩ := h
  cases built.symm.trans hcontext
  intro ρ hρ before family after split proper earlier constructor later position
  obtain ⟨rfl, rfl, rfl⟩ : before = [] ∧ family = data ∧ after = [] := by
    cases before with
    | nil =>
      cases split
      exact ⟨rfl, rfl, rfl⟩
    | cons _ _ => simp at split
  rw [position] at hconstructors
  obtain ⟨here, _, reached, step⟩ := Result.foldEach_append hconstructors
  have candidateHere : here = constructorEnv env [family] [] family earlier := by
    refine Result.foldEach_eq_foldl ?_ _ reached
    intro s c t inserted
    simp only [Result.bind_eq_ok, Except.ok.injEq] at inserted
    obtain ⟨_, _, rfl⟩ := inserted
    rfl
  simp only [Result.bind_eq_ok] at step
  obtain ⟨_, checked, _⟩ := step
  rw [candidateHere] at checked
  refine checkConstructorWith_bounded ?_ checked proper
  intro lhs rhs entailed
  exact (entailsLevelLe_sound_iff built).mpr harmless lhs rhs ρ hρ entailed

theorem addMutualInductive_predicative {block : MutualInductiveBlock}
    (harmless : IMaxHarmless constraints)
    (built : UniverseContext.new params constraints = .ok context)
    (sameParams : block.universeParams = params) (same : block.universeConstraints = constraints)
    (h : env.addMutualInductive alloc block = .ok next) :
    Predicative env context constraints block.inductives := by
  subst sameParams same
  simp only [Env.addMutualInductive, Result.bind_eq_ok] at h
  obtain ⟨_, _, universeContext, hcontext, _, _, _, _, candidate, hfamilies, _, hconstructors, _⟩ := h
  cases built.symm.trans hcontext
  have families : candidate = block.inductives.foldl Env.insertInductive env :=
    Result.foldEach_eq_foldl (fun _ _ _ => addFamily_eq) _ hfamilies
  -- each turn of the loop over the constructors of a family inserts one
  have inserts : ∀ (data : InductiveDecl) (constructors : List ConstructorDecl) (s t : Env),
      Result.foldEach constructors s (Env.addMutualConstructor alloc block context data) = .ok t →
      t = s.insertConstructors data constructors := by
    intro data constructors s t loop
    refine Result.foldEach_eq_foldl ?_ _ loop
    intro s c t inserted
    simp only [Env.addMutualConstructor, Result.bind_eq_ok, Except.ok.injEq] at inserted
    obtain ⟨_, _, rfl⟩ := inserted
    rfl
  intro ρ hρ before data after split proper earlier constructor later position
  rw [split] at hconstructors
  obtain ⟨atFamily, _, reachedFamily, loop⟩ := Result.foldEach_append hconstructors
  rw [Env.addMutualConstructors, position] at loop
  obtain ⟨here, _, reached, step⟩ := Result.foldEach_append loop
  have candidateHere : here = constructorEnv env block.inductives before data earlier := by
    rw [inserts data earlier _ _ reached, constructorEnv, ← families]
    congr 1
    refine Result.foldEach_eq_foldl ?_ _ reachedFamily
    intro s family t inserted
    exact inserts family family.constructors s t inserted
  simp only [Env.addMutualConstructor, Result.bind_eq_ok] at step
  obtain ⟨_, checked, _⟩ := step
  rw [candidateHere] at checked
  refine checkConstructorWith_bounded ?_ checked proper
  intro lhs rhs entailed
  exact (entailsLevelLe_sound_iff built).mpr harmless lhs rhs ρ hρ entailed

end Accepted

/-! ### A family for every entailed inequality -/

/-- The run returns the value, from every session that can pay for one step of reduction. -/
def Returns (env : Env) (policy : FuelPolicy) {α : Type} (x : Op α) (a : α) : Prop :=
  ∀ s, FaithfulSession env s → policy = .perQuestion ∨ 0 < s.whnfFuel →
    ∃ t, x s = (.ok a, t) ∧ FaithfulSession env t

section Returns

variable {env : Env} {layout : Layout} {policy : FuelPolicy} {universeContext : UniverseContext}
  {ctx : Ctx}

/-- A sort is its own weak head normal form, after one step. -/
theorem whnfQuestion_sort (level : Level) :
    Returns env policy (whnfQuestion env layout policy universeContext ctx .fresh (.sort level))
      (.sort level) := by
  have reduces : ∀ fuel, WhnfSpends env ctx .whnf (.sort level) (fuel + 1) (.ok (.sort level))
      fuel := fun fuel => finishes_reduce rfl (finishes_complete _ fuel)
  have answers : ∀ s, FaithfulSession env s → 0 < s.whnfFuel →
      ∃ t, whnfMachine env layout ctx universeContext.params .whnf .fresh (.sort level) s =
        (.ok (.sort level), t) ∧ FaithfulSession env t := by
    intro s faithful pays
    have machine : Realises env .whnf (fun _ => True)
        (whnfMachine env layout ctx universeContext.params .whnf .fresh (.sort level))
        (WhnfSpends env ctx .whnf (.sort level)) := whnfMachine_realises .fresh _
    obtain ⟨left, found, _, kept⟩ := machine s faithful trivial
    have fuel : s.fuel .whnf = s.whnfFuel - 1 + 1 := (Nat.sub_add_cancel pays).symm
    rw [fuel] at found
    have result := ((regular_whnfSpends .whnf _).deterministic found (reduces _)).1
    exact ⟨_, Prod.ext result rfl, kept⟩
  intro s faithful pays
  cases policy with
  | perQuestion =>
    have pays : 0 < whnfFuelLimit := by decide
    exact answers (s.setFuel .whnf whnfFuelLimit) (faithful.setFuel _) pays
  | pooled => exact answers s faithful (pays.resolve_left (fun h => nomatch h))

/-- A term whose inferred type is a sort, found without a question. -/
theorem expectSortTerm_of_lift {term : Expr} {level : Level}
    (inferred : inferTerm env layout policy universeContext ctx term = Run.lift (.ok (.sort level))) :
    Returns env policy (expectSortTerm env layout policy universeContext ctx term) level := by
  intro s faithful pays
  obtain ⟨t, run, kept⟩ := whnfQuestion_sort level s faithful pays
  refine ⟨t, ?_, kept⟩
  refine Run.bind_eq_ok.mpr ⟨.sort level, s, ?_, ?_⟩
  · rw [inferred]
    rfl
  · exact Run.bind_eq_ok.mpr ⟨.sort level, t, run, rfl⟩

theorem expectSortTerm_sort {level : Level}
    (wellFormed : ensureLevelWf universeContext.params level = .ok ()) :
    Returns env policy (expectSortTerm env layout policy universeContext ctx (.sort level))
      (.succ level) := by
  refine expectSortTerm_of_lift ?_
  funext s
  show Run.bind (Run.lift (ensureLevelWf universeContext.params level)) _ s = _
  rw [wellFormed]
  rfl

theorem expectSortTerm_const {name : String} {levels : List Level} {level : Level}
    (typed : inferConstType env universeContext name levels = .ok (.sort level)) :
    Returns env policy (expectSortTerm env layout policy universeContext ctx (.const name levels))
      level := by
  refine expectSortTerm_of_lift ?_
  rw [inferTerm, typed]

theorem expectSortTerm_pi {binder : String} {ty body : Expr} {domainSort bodySort : Level}
    (hty : Returns env .perQuestion
      (expectSortTerm env layout .perQuestion universeContext ctx ty) domainSort)
    (hbody : Returns env .perQuestion (expectSortTerm env layout .perQuestion universeContext
      (ctx.pushAssumption ty) body) bodySort) :
    Returns env .perQuestion
      (expectSortTerm env layout .perQuestion universeContext ctx (.pi binder ty body))
      (mkIMax domainSort bodySort) := by
  intro s faithful _
  obtain ⟨t, first, kept⟩ := hty s faithful (.inl rfl)
  obtain ⟨u, second, kept'⟩ := hbody t kept (.inl rfl)
  obtain ⟨v, last, kept''⟩ := whnfQuestion_sort (mkIMax domainSort bodySort) u kept' (.inl rfl)
  refine ⟨v, ?_, kept''⟩
  refine Run.bind_eq_ok.mpr ⟨.sort (mkIMax domainSort bodySort), u, ?_, ?_⟩
  · exact Run.bind_eq_ok.mpr ⟨domainSort, t, first,
      Run.bind_eq_ok.mpr ⟨bodySort, u, second, rfl⟩⟩
  · exact Run.bind_eq_ok.mpr ⟨_, v, last, rfl⟩

/-- The run of an operation of its own. -/
theorem Returns.answer {alloc : Allocator} {term : Expr} {level : Level}
    (h : ∀ layout, Returns env .perQuestion
      (expectSortTerm env layout .perQuestion universeContext ctx term) level) :
    env.expectSortInUniverseContext alloc ctx universeContext term = .ok level := by
  obtain ⟨t, run, _⟩ := h (alloc ctx [term]) _ (faithful_newSession env _ _) (.inl rfl)
  rw [Env.expectSortInUniverseContext, Env.defaultSession, run]

end Returns

/-- An environment with the axiom `T.{u} : Sort u`. -/
def sortedEnv : Env := Env.new.insertDecl "T" (.axiomDecl "T" ["u"] [] (.sort (.param "u")))

section Box

variable (params : List String) (constraints : List UniverseConstraint) (field bound : Level)

/-- `mk : T.{field} → F`. -/
def boxConstructor : ConstructorDecl :=
  ⟨"F.mk", .pi "x" (.const "T" [field]) (.const "F" (universeArgs params))⟩

/-- `F : Sort bound`, with that constructor. -/
def boxFamily : InductiveDecl where
  name := "F"
  universeParams := params
  universeConstraints := []
  params := []
  indices := []
  sort := bound
  constructors := [boxConstructor params field]
  recursor := none

def boxBlock : MutualInductiveBlock where
  name := "FBlock"
  universeParams := params
  universeConstraints := constraints
  inductives := [boxFamily params field bound]

variable {params constraints field bound} {context : UniverseContext}

/-- The type of the field has the given level. -/
theorem boxField_typed (wellFormed : ensureLevelWf context.params field = .ok ()) :
    inferConstType (sortedEnv.insertInductive (boxFamily params field bound)) context "T" [field] =
      .ok (.sort field) := by
  have declared : (sortedEnv.insertInductive (boxFamily params field bound)).decl "T" =
      some (.axiomDecl "T" ["u"] [] (.sort (.param "u"))) := by
    simp [Env.insertInductive, sortedEnv, boxFamily]
  have levels : Result.forEach [field] (ensureLevelWf context.params) = .ok () := by
    refine Result.forEach_eq_ok.mpr fun level mem => ?_
    obtain rfl := List.mem_singleton.mp mem
    exact wellFormed
  simp only [inferConstType, Result.bind_eq_ok, Result.okOr_eq_ok]
  exact ⟨_, declared, (), rfl, (), levels, (), rfl, rfl⟩

/-- The family is used at its own parameters. -/
theorem boxFamily_typed (own : context.params = params)
    (resolved : ∀ name ∈ params, isUnresolvedUniverseMetaParam name = false) :
    ∃ level, inferConstType (sortedEnv.insertInductive (boxFamily params field bound)) context "F"
      (universeArgs params) = .ok (.sort level) := by
  let family := boxFamily params field bound
  have declared : (sortedEnv.insertInductive family).decl "F" =
      some (.inductiveDecl "F" params (.sort bound) family) := by
    simp only [Env.insertInductive, Env.decl_insertDecl]
    rfl
  have levels : Result.forEach (universeArgs params) (ensureLevelWf context.params) = .ok () := by
    refine Result.forEach_eq_ok.mpr fun level mem => ?_
    obtain ⟨name, known, rfl⟩ := List.mem_map.mp mem
    simp [ensureLevelWf, own, known, resolved name known, Result.ensure, bind, Except.bind]
  have arity : (params.length == (universeArgs params).length) = true := by
    simp [universeArgs]
  have free : checkConstConstraints (sortedEnv.insertInductive family) context "F"
      (.inductiveDecl "F" params (.sort bound) family) (universeArgs params) = .ok () := by
    have unconstrained : (sortedEnv.insertInductive family).inductiveConstraintContext "F" =
        .ok (params, []) := by
      rw [Env.inductiveConstraintContext, declared]
      rfl
    simp only [checkConstConstraints, Env.declConstraintContext, unconstrained, bind, Except.bind]
    rfl
  refine ⟨bound.substLevel params (universeArgs params), ?_⟩
  simp only [inferConstType, Result.bind_eq_ok, Result.okOr_eq_ok, Result.ensure_eq_ok]
  exact ⟨_, declared, (), arity, (), levels, (), free, rfl⟩

theorem boxBlock_accepted (built : UniverseContext.new params constraints = .ok context)
    (fieldWf : ensureLevelWf context.params field = .ok ())
    (boundWf : ensureLevelWf context.params bound = .ok ())
    (entailed : context.entailsLevelLe field (normalizeLevel bound) = .ok true) :
    ∃ next, sortedEnv.addMutualInductive noReuse (boxBlock params constraints field bound) =
      .ok next := by
  obtain ⟨added, accepted⟩ := new_accepted built
  have own := accepted.params_eq
  let family := boxFamily params field bound
  let block := boxBlock params constraints field bound
  let candidate := sortedEnv.insertInductive family
  obtain ⟨familyLevel, familyTyped⟩ := @boxFamily_typed params field bound context own
    accepted.resolved
  have fresh : sortedEnv.ensureMutualInductiveNamesFresh block = .ok () := by
    show sortedEnv.ensureNamesFresh [] ["FBlock", "F", "F.mk"] = .ok ()
    decide +kernel
  have shared : Env.ensureSharedTelescopes block family context = .ok () := by
    refine Result.forEach_eq_ok.mpr fun data mem => ?_
    obtain rfl := List.mem_singleton.mp mem
    simp only [Result.bind_eq_ok, Result.ensure_eq_ok, Bool.and_eq_true, decide_eq_true_eq]
    exact ⟨(), ⟨⟨rfl, rfl⟩, rfl⟩, boundWf⟩
  have familyStep : Env.addFamily noReuse context sortedEnv family = .ok candidate := by
    simp only [Env.addFamily, Result.bind_eq_ok]
    exact ⟨.succ bound, Returns.answer fun layout => expectSortTerm_sort boundWf, rfl⟩
  have sorted : candidate.expectSortInUniverseContext noReuse .new context
      (boxConstructor params field).ty = .ok (mkIMax field familyLevel) := by
    refine Returns.answer fun layout => expectSortTerm_pi ?_ ?_
    · exact expectSortTerm_const (boxField_typed fieldWf)
    · exact expectSortTerm_const familyTyped
  have positive : checkMutualConstructorDomainPositive candidate block family "F.mk" 0
      (.const "T" [field]) = .ok () := by
    rw [checkMutualConstructorDomainPositive, Result.ensure_eq_ok, Bool.or_eq_true]
    exact .inr rfl
  have reduced : candidate.whnf noReuse .new context.params (.const "F" (universeArgs params)) =
      .ok (.const "F" (universeArgs params)) := by
    have declared : candidate.inductiveAt "F" = some family := by
      simp only [candidate, Env.insertInductive, Env.inductiveAt, Env.decl_insertDecl]
      rfl
    exact Env.whnfWithFuel_eq_ok.mpr
      ⟨1, by decide, evaluates_inductive declared (universeArgs params) []⟩
  have result : checkConstructorResult family (boxConstructor params field) 1
      (.const "F" (universeArgs params)) = .ok () := by
    have own : familyArgs family (.const "F" (universeArgs params)) = some [] := by
      have same : levelsEq (universeArgs params) (universeArgs params) = true := levelsEq_self _
      show (if decide ("F" = "F") && levelsEq (universeArgs params) (universeArgs params) &&
        decide ((0 : Nat) = 0) then some [] else none) = _
      rw [same]
      rfl
    simp only [checkConstructorResult, own]
    rfl
  have bounds : checkConstructorUniverseBounds candidate noReuse family
      (boxConstructor params field) [.const "T" [field]] context = .ok () := by
    unfold checkConstructorUniverseBounds
    dsimp only
    split
    · rfl
    · have typed : Returns candidate .pooled (expectSortTerm candidate
          (noReuse .new [.const "T" [field]]) .pooled context .new (.const "T" [field])) field :=
        expectSortTerm_const (boxField_typed fieldWf)
      obtain ⟨t, run, _⟩ := typed _ (faithful_none candidate whnfFuelLimit defeqFuelLimit)
        (.inr (by decide))
      have turn : universeBoundsFrom candidate family (boxConstructor params field) context
          (normalizeLevel bound) (noReuse .new [.const "T" [field]]) [.const "T" [field]] 0 .new
          ⟨none, whnfFuelLimit, defeqFuelLimit⟩ = (.ok (), t) := by
        refine Run.bind_eq_ok.mpr ⟨field, t, run, ?_⟩
        refine Run.bind_eq_ok.mpr ⟨true, t, Prod.ext entailed rfl, rfl⟩
      exact congrArg Prod.fst turn
  have constructorStep : checkMutualConstructorDecl candidate noReuse block family
      (boxConstructor params field) context = .ok () := by
    simp only [checkMutualConstructorDecl, checkConstructorWith, Result.bind_eq_ok]
    refine ⟨_, sorted, (), ?_, _, reduced, (), result, bounds⟩
    refine Result.forEach_eq_ok.mpr ?_
    rintro ⟨domain, index⟩ mem
    obtain ⟨rfl, rfl⟩ := Prod.mk.inj (List.mem_singleton.mp mem)
    exact positive
  simp only [Env.addMutualInductive, Result.bind_eq_ok, Result.okOr_eq_ok]
  let filled := candidate.insertConstructor family (boxConstructor params field)
  refine ⟨_, family, rfl, context, built, (), fresh, (), shared, candidate, ?_, filled, ?_, filled,
    rfl, rfl⟩
  · exact Result.bind_eq_ok.mpr ⟨candidate, familyStep, rfl⟩
  · refine Result.bind_eq_ok.mpr ⟨filled, Result.bind_eq_ok.mpr ⟨filled, ?_, rfl⟩, rfl⟩
    exact Result.bind_eq_ok.mpr ⟨(), constructorStep, rfl⟩

end Box

/-! ### When accepted families are bounded -/

section Exactly

variable {params : List String} {constraints : List UniverseConstraint} {context : UniverseContext}

/-- An accepted box whose family is bounded shows the inequality of its two levels. -/
theorem le_of_box {field bound : Level} {ρ : String → Nat}
    (built : UniverseContext.new params constraints = .ok context)
    (bounded : ∀ next,
      sortedEnv.addMutualInductive noReuse (boxBlock params constraints field bound) = .ok next →
      Predicative sortedEnv context constraints [boxFamily params field bound])
    (fieldWf : ensureLevelWf context.params field = .ok ())
    (boundWf : ensureLevelWf context.params bound = .ok ())
    (entailed : context.entailsLevelLe field (normalizeLevel bound) = .ok true)
    (hρ : Satisfies ρ constraints) (proper : bound.eval ρ ≠ 0) : field.eval ρ ≤ bound.eval ρ := by
  obtain ⟨next, accepted⟩ := boxBlock_accepted built fieldWf boundWf entailed
  have fields := bounded next accepted ρ hρ [] _ [] rfl proper [] _ [] rfl
  let candidate := sortedEnv.insertInductive (boxFamily params field bound)
  have own : OwnMemo candidate ⟨none, whnfFuelLimit, defeqFuelLimit⟩ := fun memo h => nomatch h
  have typed : Returns candidate .pooled (expectSortTerm candidate (noReuse .new []) .pooled context
      .new (.const "T" [field])) field := expectSortTerm_const (boxField_typed fieldWf)
  obtain ⟨t, run, _⟩ := typed _ own.faithful (.inr (by decide))
  exact fields 0 _ rfl _ _ _ field own (congrArg Prod.fst run)

/-- The offsets of an inequality that fails can be moved together so that its right side is
    not zero and both are still in the range of the check. -/
theorem exists_proper_offsets {a b left right : Nat} (ha : a < 2 ^ 63) (hb : b < 2 ^ 63)
    (fails : right + b < left + a) :
    ∃ i j, i < 2 ^ 63 ∧ j < 2 ^ 63 ∧ i + b ≤ j + a ∧ right + j < left + i ∧ 0 < right + j := by
  by_cases proper : 0 < right + b
  · exact ⟨a, b, ha, hb, by omega, fails, proper⟩
  · by_cases shift : a + 1 < 2 ^ 63
    · exact ⟨a + 1, 1, shift, by omega, by omega, by omega, by omega⟩
    · exact ⟨a, 1, ha, by omega, by omega, by omega, by omega⟩

/-- If every accepted block with the constraints is bounded, whatever they record is true. -/
theorem imaxHarmless_of_predicative
    (built : UniverseContext.new params constraints = .ok context)
    (bounded : ∀ block next, block.universeParams = params →
      block.universeConstraints = constraints →
      sortedEnv.addMutualInductive noReuse block = .ok next →
      Predicative sortedEnv context constraints block.inductives) :
    IMaxHarmless constraints := by
  obtain ⟨added, accepted⟩ := new_accepted built
  refine imaxHarmless_of_recorded accepted fun ρ hρ inequality recorded => ?_
  by_contra fails
  obtain ⟨_, _, _, _, _, hrhs, hlhs, _⟩ := accepted.recorded inequality recorded
  rw [AtomInequality.Holds, Atom.value, Atom.value, Nat.not_le] at fails
  obtain ⟨i, j, hi, hj, room, greater, proper⟩ :=
    exists_proper_offsets (offsetBound_lt hlhs) (offsetBound_lt hrhs) fails
  let field : Atom := ⟨inequality.lhs.base, i⟩
  let bound : Atom := ⟨inequality.rhs.base, j⟩
  have fieldOffset : offsetBound field = .ok i := if_pos hi
  have boundOffset : offsetBound bound = .ok j := if_pos hj
  have sameLhs : field.base = inequality.lhs.base := rfl
  have sameRhs : bound.base = inequality.rhs.base := rfl
  obtain ⟨entailed, fieldWf, boundWf⟩ := entailsLevelLe_of_shifted accepted recorded sameLhs
    sameRhs fieldOffset boundOffset room
  have normal : context.entailsLevelLe field.level (normalizeLevel bound.level) = .ok true := by
    rwa [Atom.level_normal]
  have le := le_of_box built (fun next => bounded _ next rfl rfl) fieldWf boundWf normal hρ
    (by rw [Atom.level_eval]; exact Nat.ne_of_gt proper)
  rw [Atom.level_eval, Atom.level_eval] at le
  exact absurd le (Nat.not_le.mpr greater)

/-- Under given universe parameters and constraints, every accepted family and every family of
    every accepted block bounds its constructors' fields, exactly when the constraints are
    `IMaxHarmless`. -/
theorem fieldsBounded_iff (built : UniverseContext.new params constraints = .ok context) :
    ((∀ env alloc data next, data.universeParams = params →
        data.universeConstraints = constraints → Env.addInductive env alloc data = .ok next →
        Predicative env context constraints [data]) ∧
      (∀ env alloc block next, block.universeParams = params →
        block.universeConstraints = constraints →
        Env.addMutualInductive env alloc block = .ok next →
        Predicative env context constraints block.inductives)) ↔
    IMaxHarmless constraints := by
  constructor
  · rintro ⟨_, blocks⟩
    exact imaxHarmless_of_predicative built fun block next => blocks _ _ block next
  · intro harmless
    constructor
    · intro env alloc data next sameParams same h
      exact addInductive_predicative harmless built sameParams same h
    · intro env alloc block next sameParams same h
      exact addMutualInductive_predicative harmless built sameParams same h

end Exactly

/-- `F.{u, v, w} : Sort (w + 1)` with the constructor `mk : Sort u → F`. -/
def leveledFamily (constraints : List UniverseConstraint) : InductiveDecl where
  name := "F"
  universeParams := ["u", "v", "w"]
  universeConstraints := constraints
  params := []
  indices := []
  sort := .succ (.param "w")
  constructors := [⟨"F.mk", .pi "x" (.sort (.param "u"))
    (.const "F" [.param "u", .param "v", .param "w"])⟩]
  recursor := none

/-- With `u ≤ w` the family is accepted and its field is bounded. -/
theorem fieldsBounded_iff_at_order :
    let constraints : List UniverseConstraint := [⟨.param "u", .le, .param "w"⟩]
    ∃ context, UniverseContext.new ["u", "v", "w"] constraints = .ok context ∧
      (∃ next, Env.new.addInductive noReuse (leveledFamily constraints) = .ok next) ∧
      Predicative Env.new context constraints [leveledFamily constraints] := by
  intro constraints
  have built : (UniverseContext.new ["u", "v", "w"] constraints).toOption.isSome = true := by
    decide +kernel
  obtain ⟨context, found⟩ := Option.isSome_iff_exists.mp built
  have hcontext := Result.ok_of_toOption found
  have accepted : (Env.new.addInductive noReuse (leveledFamily constraints)).toOption.isSome =
      true := by decide +kernel
  obtain ⟨next, found⟩ := Option.isSome_iff_exists.mp accepted
  have hnext := Result.ok_of_toOption found
  have harmless : IMaxHarmless constraints := by
    intro ρ hρ c hc _ _
    obtain rfl := List.mem_singleton.mp hc
    exact hρ _ (List.mem_singleton.mpr rfl)
  refine ⟨context, hcontext, ⟨next, hnext⟩, ?_⟩
  exact ((fieldsBounded_iff hcontext).mpr harmless).1 Env.new noReuse _ next rfl rfl hnext

/-- With `imax u v ≤ w` the family is accepted too; at `u = 5`, `v = 0`, `w = 0` its sort is
    `1` and the type of its field has the level `6`. -/
theorem addInductive_field_above_sort :
    ¬ ∀ env alloc data next context,
      UniverseContext.new data.universeParams data.universeConstraints = .ok context →
      Env.addInductive env alloc data = .ok next →
      Predicative env context data.universeConstraints [data] := by
  intro predicative
  let constraints : List UniverseConstraint := [⟨.imax (.param "u") (.param "v"), .le, .param "w"⟩]
  let ρ : String → Nat := fun name => if name = "u" then 5 else 0
  have built : (UniverseContext.new ["u", "v", "w"] constraints).toOption.isSome = true := by
    decide +kernel
  obtain ⟨context, found⟩ := Option.isSome_iff_exists.mp built
  have hcontext := Result.ok_of_toOption found
  have accepted : (Env.new.addInductive noReuse (leveledFamily constraints)).toOption.isSome =
      true := by decide +kernel
  obtain ⟨next, found⟩ := Option.isSome_iff_exists.mp accepted
  have hnext := Result.ok_of_toOption found
  have satisfied : Satisfies ρ constraints := by
    intro c hc
    obtain rfl := List.mem_singleton.mp hc
    decide +kernel
  have fields := predicative Env.new noReuse (leveledFamily constraints) next context hcontext hnext ρ
    satisfied [] _ [] rfl (by decide +kernel) [] _ [] rfl
  let candidate := Env.new.insertInductive (leveledFamily constraints)
  have own : OwnMemo candidate ⟨none, whnfFuelLimit, defeqFuelLimit⟩ := fun memo h => nomatch h
  have wellFormed : ensureLevelWf context.params (.param "u") = .ok () := by
    obtain ⟨_, accepted⟩ := new_accepted hcontext
    rw [accepted.params_eq]
    decide +kernel
  have typed : Returns candidate .pooled (expectSortTerm candidate (noReuse .new []) .pooled context
      .new (.sort (.param "u"))) (.succ (.param "u")) := expectSortTerm_sort wellFormed
  obtain ⟨t, run, _⟩ := typed _ own.faithful (.inr (by decide))
  exact absurd (fields 0 _ rfl _ _ _ _ own (congrArg Prod.fst run)) (by decide +kernel)

end NpaCore.Kernel
