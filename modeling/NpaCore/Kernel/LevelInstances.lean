import NpaCore.Kernel.StoredTerms

/-!
# Reduction and universe instantiation

A term and its instance at other levels reduce in lockstep: reduction never looks at
a level, and what it copies out of a declaration is instantiated at the levels of the
constant it replaces. The one exception are the index arguments of a recursive call,
which are copied out of the type of the constructor as they stand; when those have no
universe parameters, nothing of the declaration is left in a reduct.

## Main result

`Built.respectsLevels`: in every environment built from families whose recursive
occurrences have no universe parameters in their indices, the weak head normal form
of a well-typed term has no new universe parameters, and the form of an instance is
the instance of the form, up to equality of levels.
-/

namespace NpaCore.Kernel

open NpaCore.Expr NpaCore.Level

/-! ### Instances -/

/-- The second level has the value of the first under the changed valuation, and the
    parameters of the first are among the given ones. -/
structure LevelInstance (σ : (String → Nat) → String → Nat) (params : List String)
    (lhs rhs : Level) : Prop where
  inScope : LevelOver params lhs
  eval : ∀ ρ, rhs.eval ρ = lhs.eval (σ ρ)

/-- A definition is used with as many levels as it has parameters. -/
def DefinitionArity (env : Env) (name : String) (levels : List Level) : Prop :=
  ∀ declName universeParams universeConstraints ty value reducibility,
    env.decl name =
      some (.defDecl declName universeParams universeConstraints ty value reducibility) →
    universeParams.length = levels.length

/-- Both terms are the same up to their levels, and the levels of the second are instances. -/
abbrev Instance (env : Env) (σ : (String → Nat) → String → Nat) (params : List String) :
    Expr → Expr → Prop :=
  Alike (LevelInstance σ params) fun name lhs rhs =>
    List.Forall₂ (LevelInstance σ params) lhs rhs ∧ DefinitionArity env name lhs

/-- What lockstep reduction relies on. -/
structure LevelSafe (env : Env) : Prop where
  stored : env.WellScoped
  recursors : RecursorsSafe env
  groups : ∀ name group, env.mutualGroup name = some group → ∀ family recursor,
    group.recursors.lookup family = some recursor → ∃ declName universeParams ty owner rules,
      env.decl recursor = some (.recursorDecl declName universeParams ty owner rules)

section Levels

variable {env : Env} {σ : (String → Nat) → String → Nat} {params : List String}

theorem lookupParam_instance {names : List String} {lhs rhs : List Level} {p : String}
    (arity : names.length = lhs.length) (args : List.Forall₂ (LevelInstance σ params) lhs rhs)
    (mem : p ∈ names) : ∃ l r, lookupParam names lhs p = some l ∧
      lookupParam names rhs p = some r ∧ LevelInstance σ params l r := by
  induction args generalizing names with
  | nil =>
    cases List.length_eq_zero_iff.mp arity
    cases mem
  | @cons l r lhs rhs first _ ih =>
    cases names with
    | nil => cases mem
    | cons name names =>
      by_cases same : name = p
      · exact ⟨l, r, by simp [lookupParam, same], by simp [lookupParam, same], first⟩
      · have later : p ∈ names := by simpa [Ne.symm same] using mem
        simpa [lookupParam, same] using ih (Nat.succ.inj arity) later

/-- The levels of a definition at the levels of a constant and at those of its instance. -/
theorem levelInstance_subst {names : List String} {lhs rhs : List Level} {level : Level}
    (arity : names.length = lhs.length) (args : List.Forall₂ (LevelInstance σ params) lhs rhs)
    (inScope : LevelOver names level) :
    LevelInstance σ params (substLevel names lhs level) (substLevel names rhs level) := by
  constructor
  · refine substLevel_params fun q hq => ?_
    obtain ⟨l, _, hl, _, inst⟩ := lookupParam_instance arity args (inScope q hq)
    exact ⟨l, hl, inst.inScope⟩
  · intro ρ
    rw [substLevel_eval, substLevel_eval]
    refine eval_congr fun q hq => ?_
    obtain ⟨l, r, hl, hr, inst⟩ := lookupParam_instance arity args (inScope q hq)
    simp only [substValuation, hl, hr, inst.eval ρ]

theorem levelInstance_closed {level : Level} (closed : level.params = []) :
    LevelInstance σ params level level := by
  constructor
  · simp [LevelOver, closed]
  · intro ρ
    exact eval_congr (by simp [closed])

theorem forall₂_map_same {α : Type} {R : α → α → Prop} {g k : α → α} {xs : List α}
    (h : ∀ x ∈ xs, R (g x) (k x)) : List.Forall₂ R (xs.map g) (xs.map k) := by
  induction xs with
  | nil => exact .nil
  | cons x xs ih => exact .cons (h x (by simp)) (ih fun y mem => h y (List.mem_cons_of_mem _ mem))

theorem definitionArity_of_declared {name : String} {levels : List Level} {count : Nat}
    (h : ∃ decl, env.decl name = some decl ∧ decl.universeParams.length = count)
    (same : levels.length = count) : DefinitionArity env name levels := by
  intro declName universeParams universeConstraints ty value reducibility hdecl
  obtain ⟨decl, found, arity⟩ := h
  rw [hdecl] at found
  cases found
  exact arity.trans same.symm

/-- A term without universe parameters is its own instance. -/
theorem instance_closed {universeParams : List String} {e : Expr} (scope : InScope env universeParams e)
    (closed : e.levelParams = []) : Instance env σ params e e := by
  have none : ∀ p ∈ e.levelParams, False := by simp [closed]
  have both := (every_levelParams.mpr none).and scope
  have empty : ∀ level : Level, (∀ p ∈ level.params, False) → level.params = [] :=
    fun level h => List.eq_nil_iff_forall_not_mem.mpr h
  have same := both.alike_mapLevels (R := LevelInstance σ params)
    (C := fun name lhs rhs =>
      List.Forall₂ (LevelInstance σ params) lhs rhs ∧ DefinitionArity env name lhs) id id
    (fun level h => levelInstance_closed (empty level h.1)) ?_
  · rwa [mapLevels_id] at same
  · rintro name levels ⟨free, _, declared⟩
    refine ⟨forall₂_map_same fun level mem => levelInstance_closed (empty level (free level mem)), ?_⟩
    exact definitionArity_of_declared declared (by simp)

/-- A term in scope and its instance by a substitution. -/
theorem instance_subst {universeParams : List String} {e : Expr}
    (scope : InScope env universeParams e) (names : List String) (levels : List Level) :
    Instance env (substValuation names levels) e.levelParams e (e.substLevelsExpr names levels) := by
  have own := every_levelParams.mpr fun p (hp : p ∈ e.levelParams) => hp
  have step : ∀ level : Level, (∀ p ∈ level.params, p ∈ e.levelParams) →
      LevelInstance (substValuation names levels) e.levelParams level
        (substLevel names levels level) :=
    fun level inScope => ⟨inScope, fun ρ => substLevel_eval names levels ρ level⟩
  have alike := (own.and scope).alike_mapLevels
    (R := LevelInstance (substValuation names levels) e.levelParams)
    (C := fun name lhs rhs =>
      List.Forall₂ (LevelInstance (substValuation names levels) e.levelParams) lhs rhs ∧
        DefinitionArity env name lhs) id (substLevel names levels)
    (fun level h => step level h.1) ?_
  · rwa [mapLevels_id, mapLevels_substLevel] at alike
  · rintro name us ⟨inScope, _, declared⟩
    refine ⟨forall₂_map_same fun level mem => step level (inScope level mem), ?_⟩
    exact definitionArity_of_declared declared (by simp)

end Levels

/-! ### Reduction of a recursor -/

section Lockstep

variable {env : Env} {σ : (String → Nat) → String → Nat} {params : List String}

theorem forall₂_getElem? {α β : Type} {R : α → β → Prop} {xs : List α} {ys : List β}
    (h : List.Forall₂ R xs ys) (i : Nat) : Option.Rel R xs[i]? ys[i]? := by
  induction h generalizing i with
  | nil => exact .none
  | cons first _ ih =>
    cases i with
    | zero => exact .some first
    | succ i => exact ih i

theorem instance_constructorArgsAt {args args' : List Expr} {e f : Expr} {depth : Nat}
    (sameArgs : List.Forall₂ (Instance env σ params) args args') (h : Instance env σ params e f) :
    Result.Simulates (Instance env σ params) (instantiateConstructorArgsAt args e depth)
      (instantiateConstructorArgsAt args' f depth) := by
  induction h generalizing depth with
  | sort h => exact Result.simulates_ok (.sort h)
  | const h => exact Result.simulates_ok (.const h)
  | @bvar index =>
    simp only [instantiateConstructorArgsAt]
    split
    next => exact Result.simulates_ok .bvar
    next =>
      refine Result.simulates_bind (R := Instance env σ params) ?_ fun _ _ alike => alike.shift
      rw [sameArgs.length_eq]
      refine Result.simulates_okOr ?_
      split
      next => exact forall₂_getElem? sameArgs _
      next => exact .none
  | app _ _ ihFn ihArg =>
    refine Result.simulates_bind ihFn fun _ _ function => ?_
    exact Result.simulates_bind ihArg fun _ _ argument =>
      Result.simulates_ok (.app function argument)
  | lam _ _ ihTy ihBody =>
    refine Result.simulates_bind ihTy fun _ _ domain => ?_
    exact Result.simulates_bind ihBody fun _ _ under => Result.simulates_ok (.lam domain under)
  | pi _ _ ihTy ihBody =>
    refine Result.simulates_bind ihTy fun _ _ domain => ?_
    exact Result.simulates_bind ihBody fun _ _ under => Result.simulates_ok (.pi domain under)

/-- The spines of a reduction and of its instance. -/
structure SpineInstance (env : Env) (σ : (String → Nat) → String → Nat) (params : List String)
    (spine spine' : RecursorSpine) : Prop where
  name : spine.recursorName = spine'.recursorName
  levels : List.Forall₂ (LevelInstance σ params) spine.levels spine'.levels
  arity : DefinitionArity env spine.recursorName spine.levels
  prefixArgs : List.Forall₂ (Instance env σ params) spine.prefixArgs spine'.prefixArgs
  constructorArgs :
    List.Forall₂ (Instance env σ params) spine.constructorArgs spine'.constructorArgs

variable {spine spine' : RecursorSpine}

theorem SpineInstance.call (same : SpineInstance env σ params spine spine') {recursorName : String}
    (arity : DefinitionArity env recursorName spine.levels) {indices indices' : List Expr}
    (sameIndices : List.Forall₂ (Instance env σ params) indices indices') {field field' : Expr}
    (sameField : Instance env σ params field field') :
    Instance env σ params (spine.call recursorName indices field)
      (spine'.call recursorName indices' field') := by
  refine Alike.apps (.const ⟨same.levels, arity⟩) ?_
  exact List.rel_append (List.rel_append same.prefixArgs sameIndices) (.cons sameField .nil)

/-- The index arguments of a recursive call have no levels of their own. -/
theorem SpineInstance.indices (same : SpineInstance env σ params spine spine') {ctxLen : Nat}
    {indices : List Expr} (closed : ∀ index ∈ indices, Instance env σ params index index) :
    Result.Simulates (List.Forall₂ (Instance env σ params))
      (Result.collect indices fun arg =>
        instantiateConstructorArgs arg (spine.constructorArgs.take ctxLen))
      (Result.collect indices fun arg =>
        instantiateConstructorArgs arg (spine'.constructorArgs.take ctxLen)) := by
  have self : List.Forall₂ (Instance env σ params) indices indices :=
    List.forall₂_same.mpr closed
  refine Result.simulates_collect self fun arg arg' alike => ?_
  exact instance_constructorArgsAt (List.forall₂_take ctxLen same.constructorArgs) alike

/-- The recursive call for a field, in both reductions. -/
theorem SpineInstance.recursiveCall (safe : LevelSafe env) {inductiveName : String}
    (recursors : RecursorSafe env inductiveName) {data : InductiveDecl}
    (hdata : env.inductiveData inductiveName = .ok data) {constructor : ConstructorDecl}
    (hconstructor : constructor ∈ data.constructors) {domain : Expr} {ctxLen : Nat}
    (hdomain : (domain, ctxLen) ∈ constructor.ty.peelPiDomains.1.zipIdx)
    (same : SpineInstance env σ params spine spine') {field field' : Expr}
    (sameField : Instance env σ params field field') :
    Result.Simulates (Option.Rel (Instance env σ params))
      (recursiveCall env (env.mutualGroup inductiveName) data spine domain field ctxLen)
      (recursiveCall env (env.mutualGroup inductiveName) data spine' domain field' ctxLen) := by
  obtain ⟨declName, universeParams, ty, hdecl⟩ := inductiveData_eq_ok.mp hdata
  have scope : InScope env universeParams domain := by
    have stored := safe.stored inductiveName _ hdecl constructor.ty
      (List.mem_cons_of_mem _ (List.mem_map_of_mem hconstructor))
    exact stored.domains domain (List.fst_mem_of_mem_zipIdx hdomain)
  -- the index arguments are parts of the stored domain, and have no universe parameters
  have closed : ∀ family indices, FieldFamily env inductiveName family →
      directRecursiveIndexArgs family domain ctxLen = .ok indices →
        ∀ index ∈ indices, Instance env σ params index index := by
    intro family indices hfamily hdirect index mem
    have free := recursors.levelFree data family hdata hfamily constructor hconstructor domain
      ctxLen hdomain indices hdirect index mem
    obtain ⟨levels, args, spineEq, _, rfl, _⟩ := directRecursiveIndexArgs_spec hdirect
    have parts := scope.collectApps.2
    rw [spineEq] at parts
    exact instance_closed (parts index (List.mem_of_mem_drop mem)) free
  cases hgroup : env.mutualGroup inductiveName with
  | none =>
    simp only [Kernel.recursiveCall]
    split
    next => exact Result.simulates_ok .none
    next indices hdirect =>
      have family : FieldFamily env inductiveName data := by simp [FieldFamily, hgroup, hdata]
      refine Result.simulates_bind (same.indices (closed data indices family hdirect)) ?_
      intro indices indices' sameIndices
      rw [← same.name]
      exact Result.simulates_ok (.some (same.call same.arity sameIndices sameField))
  | some group =>
    simp only [Kernel.recursiveCall]
    split
    next => exact Result.simulates_ok .none
    next familyName indices hdirect =>
      obtain ⟨hmem, familyData, hfamilyData, found⟩ := directMutualRecursiveIndexArgs_ok hdirect
      have family : FieldFamily env inductiveName familyData := by
        simp only [FieldFamily, hgroup]
        exact ⟨familyName, hmem, hfamilyData⟩
      refine Result.simulates_bind (Result.simulates_self (R := fun a b => a = b ∧
        group.recursors.lookup familyName = some a) fun recursor found => ?_) ?_
      · exact ⟨rfl, Result.okOr_eq_ok.mp found⟩
      rintro recursorName _ ⟨rfl, hrecursor⟩
      refine Result.simulates_bind (Result.simulates_self (R := Eq) fun _ _ => rfl) ?_
      rintro recursiveData _ rfl
      refine Result.simulates_bind (same.indices (closed familyData indices family found)) ?_
      intro indices indices' sameIndices
      rw [sameIndices.length_eq]
      refine Result.simulates_bind (Result.simulates_self (R := Eq) fun _ _ => rfl) ?_
      rintro _ _ _
      -- a sibling is called at the levels of this recursor, however many it declares
      obtain ⟨_, _, _, _, _, hsibling⟩ := safe.groups inductiveName group hgroup familyName
        recursorName hrecursor
      have arity : DefinitionArity env recursorName spine.levels := by
        intro _ _ _ _ _ _ hdef
        rw [hsibling] at hdef
        cases hdef
      exact Result.simulates_ok (.some (same.call arity sameIndices sameField))

theorem SpineInstance.applyMinor (safe : LevelSafe env) {inductiveName : String}
    (recursors : RecursorSafe env inductiveName) {data : InductiveDecl}
    (hdata : env.inductiveData inductiveName = .ok data) {constructor : ConstructorDecl}
    (hconstructor : constructor ∈ data.constructors)
    (same : SpineInstance env σ params spine spine') {fields fields' : List Expr}
    (sameFields : List.Forall₂ (Instance env σ params) fields fields') {domains : List Expr}
    {start : Nat}
    (hdomains : ∀ i domain, domains[i]? = some domain →
      (domain, data.params.length + start + i) ∈ constructor.ty.peelPiDomains.1.zipIdx)
    {minor minor' : Expr} (sameMinor : Instance env σ params minor minor') :
    Result.Simulates (Instance env σ params)
      (Result.foldEach ((fields.zip domains).zipIdx start) minor
        (applyField env (env.mutualGroup inductiveName) data spine))
      (Result.foldEach ((fields'.zip domains).zipIdx start) minor'
        (applyField env (env.mutualGroup inductiveName) data spine')) := by
  induction sameFields generalizing domains start minor minor' with
  | nil => exact Result.simulates_ok sameMinor
  | @cons field field' fields fields' sameField _ ih =>
    cases domains with
    | nil => exact Result.simulates_ok sameMinor
    | cons domain domains =>
      have here : (domain, data.params.length + start) ∈ constructor.ty.peelPiDomains.1.zipIdx :=
        hdomains 0 domain rfl
      have later : ∀ i d, domains[i]? = some d →
          (d, data.params.length + (start + 1) + i) ∈ constructor.ty.peelPiDomains.1.zipIdx := by
        intro i d hd
        have shifted := hdomains (i + 1) d (by simpa using hd)
        have place : data.params.length + start + (i + 1) = data.params.length + (start + 1) + i := by
          omega
        rwa [place] at shifted
      refine Result.simulates_bind ?_ fun _ _ next => ih later next
      refine Result.simulates_bind
        (same.recursiveCall safe recursors hdata hconstructor here sameField) ?_
      intro call call' sameCall
      cases sameCall with
      | none => exact Result.simulates_ok (.app sameMinor sameField)
      | some alike => exact Result.simulates_ok (.app (.app sameMinor sameField) alike)

/-- The heads of two instances are the same constant, or no constants. -/
theorem instance_spine {e f : Expr} (h : Instance env σ params e f) :
    (∃ name levels levels' args args', e.collectApps = (.const name levels, args) ∧
      f.collectApps = (.const name levels', args') ∧
      List.Forall₂ (LevelInstance σ params) levels levels' ∧ DefinitionArity env name levels ∧
      List.Forall₂ (Instance env σ params) args args') ∨
    ((∀ name levels args, e.collectApps ≠ (.const name levels, args)) ∧
      ∀ name levels args, f.collectApps ≠ (.const name levels, args)) := by
  obtain ⟨head, args⟩ := h.collectApps
  rcases he : e.collectApps with ⟨fn, xs⟩
  rcases hf : f.collectApps with ⟨fn', ys⟩
  rw [he, hf] at head args
  dsimp only at head args
  cases head with
  | const inst => exact .inl ⟨_, _, _, _, _, rfl, rfl, inst.1, inst.2, args⟩
  | sort _ | bvar | app _ _ | lam _ _ | pi _ _ =>
    refine .inr ⟨?_, ?_⟩
    · rintro _ _ _ ⟨⟩
    · rintro _ _ _ ⟨⟩

theorem resolveRecursor_instance {e f : Expr} (h : Instance env σ params e f) :
    Option.Rel (fun a b => a.1 = b.1 ∧ a.2.1 = b.2.1 ∧ Instance env σ params a.2.2 b.2.2)
      (resolveRecursor env e) (resolveRecursor env f) := by
  rcases instance_spine h with ⟨name, levels, levels', args, args', he, hf, _, _, sameArgs⟩ |
    ⟨noConst, noConst'⟩
  · simp only [resolveRecursor, he, hf]
    split
    next declName universeParams ty inductiveName rules hdecl =>
      have majors := forall₂_getElem? sameArgs rules.majorIndex
      generalize args[rules.majorIndex]? = found at majors ⊢
      generalize args'[rules.majorIndex]? = found' at majors ⊢
      cases majors with
      | none => exact .none
      | some alike => exact .some ⟨rfl, rfl, alike⟩
    next => exact .none
  · have stuck : ∀ g : Expr, (∀ name levels args, g.collectApps ≠ (.const name levels, args)) →
        resolveRecursor env g = none := by
      intro g other
      unfold resolveRecursor
      split
      next name levels args spine => exact absurd spine (other name levels args)
      next => rfl
    rw [stuck e noConst, stuck f noConst']
    exact .none

theorem finishRecursorReduction_instance (safe : LevelSafe env) {application application' : Expr}
    {inductiveName : String} {rules : RecursorRules} {major : Expr}
    (resolved : resolveRecursor env application = some (inductiveName, rules, major))
    (same : Instance env σ params application application') {majorWhnf majorWhnf' : Expr}
    (sameMajor : Instance env σ params majorWhnf majorWhnf') :
    Result.Simulates (Option.Rel (Instance env σ params))
      (finishRecursorReduction env application inductiveName rules majorWhnf)
      (finishRecursorReduction env application' inductiveName rules majorWhnf') := by
  obtain ⟨recursorName, levels, args, declName, universeParams, ty, spine, hdecl, _⟩ :=
    resolveRecursor_spec resolved
  have recursors : RecursorSafe env inductiveName := safe.recursors _ _ _ _ _ _ hdecl
  rcases instance_spine same with ⟨name, us, levels', _, args', he, hf, sameLevels, arity, sameArgs⟩ |
    ⟨other, _⟩
  · rw [spine] at he
    cases he
    rcases instance_spine sameMajor with
      ⟨constructorName, constructorLevels, constructorLevels', constructorArgs, constructorArgs',
        hmajor, hmajor', _, _, sameConstructorArgs⟩ | ⟨noConst, noConst'⟩
    · simp only [finishRecursorReduction, spine, hf, hmajor, hmajor']
      split
      next => exact Result.simulates_ok .none
      next =>
        refine Result.simulates_bind (R := fun a b => a = b ∧
          env.inductiveData inductiveName = .ok a)
          (Result.simulates_self fun _ found => ⟨rfl, found⟩) ?_
        rintro data _ ⟨rfl, hdata⟩
        split
        next => exact Result.simulates_ok .none
        next constructorIndex _ =>
          refine Result.simulates_bind (Result.simulates_self (R := Eq) fun _ _ => rfl) ?_
          rintro offset _ rfl
          -- the rule's minor premise is at the same place in both argument lists
          have minors := forall₂_getElem? sameArgs (rules.minorStart + offset + constructorIndex)
          generalize args[rules.minorStart + offset + constructorIndex]? = found at minors ⊢
          generalize args'[rules.minorStart + offset + constructorIndex]? = found' at minors ⊢
          cases hconstructor : data.constructors[constructorIndex]? with
          | none =>
            cases minors with
            | none | some _ => exact Result.simulates_ok .none
          | some constructor =>
            cases minors with
            | none => exact Result.simulates_ok .none
            | some sameMinor =>
              have sameFields := List.forall₂_drop data.params.length sameConstructorArgs
              dsimp only
              rw [sameConstructorArgs.length_eq, sameFields.length_eq]
              split
              next => exact Result.simulates_ok .none
              next =>
                split
                next => exact Result.simulates_ok .none
                next =>
                  have domains : ∀ i domain,
                      (constructor.ty.peelPiDomains.1.drop data.params.length)[i]? = some domain →
                      (domain, data.params.length + 0 + i) ∈
                        constructor.ty.peelPiDomains.1.zipIdx := by
                    intro i domain hdomain
                    rw [List.getElem?_drop] at hdomain
                    exact List.mk_mem_zipIdx_iff_getElem?.mpr (by simpa using hdomain)
                  have sameSpine : SpineInstance env σ params
                      ⟨recursorName, levels, args.take (rules.majorIndex - data.indices.length),
                        constructorArgs⟩
                      ⟨recursorName, levels', args'.take (rules.majorIndex - data.indices.length),
                        constructorArgs'⟩ :=
                    ⟨rfl, sameLevels, arity, List.forall₂_take _ sameArgs, sameConstructorArgs⟩
                  refine Result.simulates_bind (sameSpine.applyMinor safe recursors hdata
                    (List.mem_of_getElem? hconstructor) sameFields domains sameMinor) ?_
                  intro reduced reduced' alike
                  exact Result.simulates_ok
                    (.some (alike.apps (List.forall₂_drop _ sameArgs)))
    · -- a major premise that is no constructor application blocks both
      have blocked : ∀ (application g : Expr),
          (∀ name levels args, g.collectApps ≠ (.const name levels, args)) →
          finishRecursorReduction env application inductiveName rules g = .ok none := by
        intro application g other
        simp only [finishRecursorReduction]
        split
        next hg => exact absurd hg (other _ _ _)
        next => rfl
      rw [blocked application majorWhnf noConst, blocked application' majorWhnf' noConst']
      exact Result.simulates_ok .none
  · exact absurd spine (other _ _ _)

theorem unfoldDefinition_instance (safe : LevelSafe env) {name : String} {levels levels' : List Level}
    (sameLevels : List.Forall₂ (LevelInstance σ params) levels levels')
    (arity : DefinitionArity env name levels) :
    Option.Rel (Instance env σ params) (unfoldDefinition env name levels)
      (unfoldDefinition env name levels') := by
  simp only [unfoldDefinition]
  split
  next declName universeParams universeConstraints ty value hdecl =>
    have count : universeParams.length = levels.length := arity _ _ _ _ _ _ hdecl
    have scope : InScope env universeParams value := safe.stored name _ hdecl value (by simp [Decl.terms])
    refine .some ?_
    rw [← mapLevels_substLevel, ← mapLevels_substLevel]
    refine Every.alike_mapLevels scope _ _
      (fun level inScope => levelInstance_subst count sameLevels inScope) ?_
    rintro constant us ⟨inScope, declared⟩
    refine ⟨forall₂_map_same fun level mem => levelInstance_subst count sameLevels (inScope level mem), ?_⟩
    exact definitionArity_of_declared declared (by simp)
  next => exact .none

theorem Instance.isLam {e f : Expr} (h : Instance env σ params e f) (other : ¬ IsLam e) :
    ¬ IsLam f := by
  cases h with
  | lam _ _ => exact absurd trivial other
  | sort _ | bvar | const _ | app _ _ | pi _ _ => exact fun isLam => isLam

/-- Evaluation of an instance takes the same steps, one rule for each rule. -/
theorem Evaluates.lockstep (safe : LevelSafe env) {ctx ctx' : Ctx}
    (bound : ∀ index, ctx.ensureBound index = .ok () → ctx'.ensureBound index = .ok ())
    {term value : Expr} {cost : Nat} (h : Evaluates env ctx term cost value) {term' : Expr}
    (same : Instance env σ params term term') :
    ∃ value', Evaluates env ctx' term' cost value' ∧ Instance env σ params value value' := by
  induction h generalizing term' with
  | sort =>
    cases same with
    | sort inst => exact ⟨_, .sort, .sort inst⟩
  | lam =>
    cases same with
    | lam domain under => exact ⟨_, .lam, .lam domain under⟩
  | pi =>
    cases same with
    | pi domain under => exact ⟨_, .pi, .pi domain under⟩
  | bvar inside =>
    cases same with
    | bvar => exact ⟨_, .bvar (bound _ inside), .bvar⟩
  | const stuck =>
    cases same with
    | @const name levels levels' inst =>
      have both := unfoldDefinition_instance safe inst.1 inst.2
      rw [stuck] at both
      cases hother : unfoldDefinition env _ levels' with
      | none => exact ⟨_, .const hother, .const inst⟩
      | some found =>
        rw [hother] at both
        cases both
  | delta unfolds _ ih =>
    -- the definition unfolds under any levels, as the number of parameters is the same
    cases same with
    | @const name levels levels' inst =>
      have both := unfoldDefinition_instance safe inst.1 inst.2
      rw [unfolds] at both
      cases hother : unfoldDefinition env _ levels' with
      | none =>
        rw [hother] at both
        cases both
      | some found =>
        rw [hother] at both
        cases both with
        | some alike =>
          obtain ⟨value', evaluates, last⟩ := ih alike
          exact ⟨value', .delta hother evaluates, last⟩
  | beta _ instantiated _ ihFn ih =>
    cases same with
    | app function argument =>
      obtain ⟨fnValue, fnEvaluates, fnSame⟩ := ihFn function
      cases fnSame with
      | lam domain under =>
        obtain ⟨current', instantiated', alike⟩ := under.instantiate argument _ instantiated
        obtain ⟨value', evaluates, last⟩ := ih alike
        exact ⟨value', .beta fnEvaluates instantiated' evaluates, last⟩
  | neutral _ other stuck ihFn =>
    cases same with
    | @app _ _ _ arg' function argument =>
      obtain ⟨fnValue, fnEvaluates, fnSame⟩ := ihFn function
      have both := resolveRecursor_instance (Alike.app fnSame argument)
      rw [stuck] at both
      cases hother : resolveRecursor env (.app fnValue arg') with
      | none =>
        exact ⟨_, .neutral fnEvaluates (Instance.isLam fnSame other) hother, .app fnSame argument⟩
      | some found =>
        rw [hother] at both
        cases both
  | @iota _ _ _ inductiveName rules _ _ _ _ _ _ _ _ other resolved _ finished _ ihFn ihMajor ih =>
    -- the same recursor is found, and its rule fires for both
    cases same with
    | @app _ _ _ arg' function argument =>
      obtain ⟨fnValue, fnEvaluates, fnSame⟩ := ihFn function
      have both := resolveRecursor_instance (Alike.app fnSame argument)
      rw [resolved] at both
      cases hother : resolveRecursor env (.app fnValue arg') with
      | none =>
        rw [hother] at both
        cases both
      | some found =>
        rw [hother] at both
        obtain ⟨inductiveName', rules', major'⟩ := found
        cases both with
        | some both =>
          obtain ⟨sameName, sameRules, alike⟩ := both
          cases sameName
          cases sameRules
          obtain ⟨majorWhnf', majorEvaluates, sameMajor⟩ := ihMajor alike
          obtain ⟨found, finished', reducedSame⟩ := finishRecursorReduction_instance safe resolved
            (.app fnSame argument) sameMajor _ finished
          cases reducedSame with
          | some alike =>
            obtain ⟨value', evaluates, last⟩ := ih alike
            exact ⟨value', .iota fnEvaluates (Instance.isLam fnSame other) hother majorEvaluates
              finished' evaluates, last⟩
  | @blocked _ _ _ inductiveName rules _ _ _ _ _ other resolved _ finished ihFn ihMajor =>
    -- a rule that does not fire for the one does not fire for the other
    cases same with
    | @app _ _ _ arg' function argument =>
      obtain ⟨fnValue, fnEvaluates, fnSame⟩ := ihFn function
      have both := resolveRecursor_instance (Alike.app fnSame argument)
      rw [resolved] at both
      cases hother : resolveRecursor env (.app fnValue arg') with
      | none =>
        rw [hother] at both
        cases both
      | some found =>
        rw [hother] at both
        obtain ⟨inductiveName', rules', major'⟩ := found
        cases both with
        | some both =>
          obtain ⟨sameName, sameRules, alike⟩ := both
          cases sameName
          cases sameRules
          obtain ⟨majorWhnf', majorEvaluates, sameMajor⟩ := ihMajor alike
          obtain ⟨found, finished', reducedSame⟩ := finishRecursorReduction_instance safe resolved
            (.app fnSame argument) sameMajor _ finished
          cases reducedSame
          exact ⟨_, .blocked fnEvaluates (Instance.isLam fnSame other) hother majorEvaluates
            finished', .app fnSame argument⟩

end Lockstep

/-! ### Environments -/

/-- The recursors that a group names are recursors. -/
theorem BuiltFrom.groupRecursors {P : Declaration → Prop} {env : Env} (built : BuiltFrom P env) :
    ∀ name group, env.mutualGroup name = some group → ∀ family recursor,
      group.recursors.lookup family = some recursor → ∃ declName universeParams ty owner rules,
        env.decl recursor = some (.recursorDecl declName universeParams ty owner rules) := by
  refine built.induct (I := fun env => ∀ name group, env.mutualGroup name = some group →
    ∀ family recursor, group.recursors.lookup family = some recursor →
      ∃ declName universeParams ty owner rules,
        env.decl recursor = some (.recursorDecl declName universeParams ty owner rules)) ?_ ?_
  · intro options name group hgroup
    cases hgroup
  · intro env next alloc declaration _ _ _ admitted before name group hgroup family recursor found
    rw [admitted.groups] at hgroup
    rcases Option.or_eq_some_iff.mp hgroup with new | ⟨_, old⟩
    · cases declaration with
      | mutualInductiveBlock block =>
        simp only [Declaration.group, Option.ite_none_right_eq_some, Option.some.injEq] at new
        obtain ⟨_, rfl⟩ := new
        -- the pairs of the group come from the recursors that the families declare
        obtain ⟨front, back, split, _⟩ := List.lookup_eq_some_iff.mp found
        have pair : (family, recursor) ∈ (Env.mutualGroupInfo block).recursors := by
          rw [split]
          simp
        obtain ⟨data, hdata, named⟩ := List.mem_filterMap.mp pair
        obtain ⟨declared, hdeclared, same⟩ := Option.map_eq_some_iff.mp named
        cases same
        have entry : (declared.name, Decl.recursorDecl declared.name declared.universeParams
            declared.ty data.name (declared.rules.getD (generatedMutualRecursorRules block data))) ∈
              mutualEntries block := by
          simp only [mutualEntries, List.mem_append]
          refine .inr (List.mem_flatMap.mpr ⟨data, hdata, ?_⟩)
          simp [recursorEntries, hdeclared]
        exact ⟨_, _, _, _, _, admitted.added _ entry⟩
      | axiomDecl | defDecl | theoremDecl | inductiveDecl => cases new
    · obtain ⟨declName, universeParams, ty, owner, rules, hdecl⟩ :=
        before name group old family recursor found
      exact ⟨declName, universeParams, ty, owner, rules, admitted.decl_old hdecl⟩

theorem Built.levelSafe {env : Env} (built : Built NoLevelLeak env) : LevelSafe env :=
  ⟨built.builtFrom.wellScoped, built.recursorsSafe, built.builtFrom.groupRecursors⟩

/-! ### The property -/

/-- Equality of terms up to equality of levels. -/
def EqualLevels : Expr → Expr → Prop :=
  Alike LevelEquiv fun _ => List.Forall₂ LevelEquiv

/-- A local context with its universe parameters substituted. -/
def Ctx.substLevels (ctx : Ctx) (names : List String) (levels : List Level) : Ctx :=
  ⟨ctx.locals.map (substLevelsExpr names levels)⟩

/-- The weak head normal form has only universe parameters of the term or of the universe
    context, and the form of an instance of the term is the instance of the form. -/
def RespectsLevels (env : Env) (alloc : Allocator) (ctx : Ctx) (delta : List String)
    (term : Expr) : Prop :=
  ∀ value, env.whnf alloc ctx delta term = .ok value →
    (∀ p ∈ value.levelParams, p ∈ term.levelParams ∨ p ∈ delta) ∧
    ∀ names levels alloc' delta', ∃ other,
      env.whnf alloc' (ctx.substLevels names levels) delta' (term.substLevelsExpr names levels) =
        .ok other ∧ EqualLevels (value.substLevelsExpr names levels) other

theorem ensureBound_substLevels {ctx : Ctx} {index : Nat} (names : List String)
    (levels : List Level) (h : ctx.ensureBound index = .ok ()) :
    (ctx.substLevels names levels).ensureBound index = .ok () := by
  simp only [Ctx.ensureBound, Ctx.lookup, Result.bind_eq_ok, Result.okOr_eq_ok, Ctx.substLevels,
    List.length_map, and_true] at h ⊢
  obtain ⟨ty, found⟩ := h
  split at found
  next inside =>
    refine ⟨ty.substLevelsExpr names levels, ?_⟩
    rw [if_pos inside, List.getElem?_map, found]
    rfl
  next => cases found

theorem forall₂_over {σ : (String → Nat) → String → Nat} {params : List String}
    {lhs rhs : List Level} (h : List.Forall₂ (LevelInstance σ params) lhs rhs) :
    ∀ level ∈ lhs, ∀ p ∈ level.params, p ∈ params := by
  induction h with
  | nil => simp
  | cons first _ ih =>
    intro level mem
    rcases List.mem_cons.mp mem with rfl | mem
    · exact first.inScope
    · exact ih level mem

theorem forall₂_equiv {σ : (String → Nat) → String → Nat} {params : List String}
    {levels lhs rhs : List Level}
    (first : List.Forall₂ (fun l r => ∀ ρ, r.eval ρ = l.eval (σ ρ)) levels lhs)
    (second : List.Forall₂ (LevelInstance σ params) levels rhs) :
    List.Forall₂ LevelEquiv lhs rhs := by
  induction first generalizing rhs with
  | nil =>
    cases second
    exact .nil
  | cons head _ ih =>
    cases second with
    | cons inst rest =>
      refine .cons (fun ρ => ?_) (ih rest)
      rw [head ρ, inst.eval ρ]

/-- A term and its instance, level by level. -/
theorem alike_substLevelsExpr (names : List String) (levels : List Level) (e : Expr) :
    Alike (fun l r => ∀ ρ, r.eval ρ = l.eval (substValuation names levels ρ))
      (fun _ => List.Forall₂ fun l r => ∀ ρ, r.eval ρ = l.eval (substValuation names levels ρ))
      e (e.substLevelsExpr names levels) := by
  have every : e.Every (fun _ => True) (fun _ _ => True) :=
    every_of_forall (fun _ => trivial) (fun _ _ => trivial) e
  have step : ∀ level : Level, ∀ ρ,
      (substLevel names levels level).eval ρ = level.eval (substValuation names levels ρ) :=
    fun level ρ => substLevel_eval names levels ρ level
  have alike := every.alike_mapLevels (R := fun l r => ∀ ρ, r.eval ρ =
      l.eval (substValuation names levels ρ))
    (C := fun _ => List.Forall₂ fun l r => ∀ ρ, r.eval ρ = l.eval (substValuation names levels ρ))
    id (substLevel names levels) (fun level _ => step level)
    fun _ us _ => forall₂_map_same fun level _ => step level
  rwa [mapLevels_id, mapLevels_substLevel] at alike

theorem Built.respectsLevels {env : Env} (built : Built NoLevelLeak env) (alloc : Allocator)
    (ctx : Ctx) (universeContext : UniverseContext) {term ty : Expr}
    (h : env.inferInUniverseContext alloc ctx universeContext term = .ok ty) :
    RespectsLevels env alloc ctx universeContext.params term := by
  intro value returned
  have safe := built.levelSafe
  have scope : InScope env universeContext.params term := by
    refine Every.mono (checked_of_infer h) (fun _ inScope => inScope) ?_
    rintro name levels ⟨decl, declared, arity, inScope, _⟩
    exact ⟨inScope, decl, declared, arity⟩
  obtain ⟨cost, enough, evaluates⟩ := Env.whnfWithFuel_eq_ok.mp returned
  refine ⟨?_, ?_⟩
  · -- the term is an instance of itself, under the valuation that changes nothing
    obtain ⟨_, _, same⟩ := evaluates.lockstep safe (fun _ bound => bound)
      (instance_subst scope [] [])
    have inScope := same.every (fun _ _ inst => inst.inScope) fun _ _ _ inst => forall₂_over inst.1
    intro p hp
    exact .inl (every_levelParams.mp inScope p hp)
  · intro names levels alloc' delta'
    obtain ⟨other, otherEvaluates, same⟩ := evaluates.lockstep safe
      (fun _ bound => ensureBound_substLevels names levels bound) (instance_subst scope names levels)
    refine ⟨other, Env.whnfWithFuel_eq_ok.mpr ⟨cost, enough, otherEvaluates⟩, ?_⟩
    refine (alike_substLevelsExpr names levels value).join same ?_ ?_
    · intro level lhs rhs first second ρ
      rw [first ρ, second.eval ρ]
    · rintro _ us lhs rhs first ⟨second, _⟩
      exact forall₂_equiv first second

/-- Natural numbers, with the recursor into every universe. -/
def countFamily : InductiveDecl :=
  let count : Expr := .const "N" []
  let next (n : Expr) : Expr := .app (.const "N.s" []) n
  { name := "N"
    universeParams := []
    universeConstraints := []
    params := []
    indices := []
    sort := .succ .zero
    constructors := [⟨"N.z", count⟩, ⟨"N.s", .pi "n" count count⟩]
    recursor := some
      { name := "N.rec"
        universeParams := ["v"]
        ty := .pi "motive" (.pi "t" count (.sort (.param "v")))
          (.pi "_" (.app (.bvar 0) (.const "N.z" []))
            (.pi "_" (.pi "_" count (.pi "_" (.app (.bvar 2) (.bvar 0))
                (.app (.bvar 3) (next (.bvar 1)))))
              (.pi "t" count (.app (.bvar 3) (.bvar 0)))))
        rules := none } }

def countEnv : Env := Env.new.insertAll (inductiveEntries countFamily)

theorem countFamily_noLevelLeak : NoLevelLeak [countFamily] := by
  intro data hdata _ family hfamily
  cases List.mem_singleton.mp hdata
  cases List.mem_singleton.mp hfamily
  intro constructor hconstructor domain index hdomain indices hdirect
  -- the only domain is `N`, without index arguments
  obtain ⟨_, args, _, length, same, _⟩ := directRecursiveIndexArgs_spec hdirect
  have none : args = [] := List.length_eq_zero_iff.mp length
  rw [same, none]
  simp

theorem countEnv_built : Built NoLevelLeak countEnv := by
  have accepted : Env.new.addInductive noReuse countFamily = .ok countEnv :=
    Result.ok_of_toOption (by decide +kernel)
  exact .addInductive (.start .memoOff) countFamily_noLevelLeak accepted

/-- `N.rec.{w + 2} (fun _ => Sort (w + 1)) (Sort w) (fun _ ih => ih) (N.s N.z)`. -/
def countTerm : Expr :=
  let w : Level := .param "w"
  apps (.const "N.rec" [.succ (.succ w)])
    [.lam "t" (.const "N" []) (.sort (.succ w)), .sort w,
      .lam "n" (.const "N" []) (.lam "ih" (.sort (.succ w)) (.bvar 0)),
      .app (.const "N.s" []) (.const "N.z" [])]

theorem respectsLevels_at_count :
    ∃ universeContext ty, UniverseContext.new ["w"] [] = .ok universeContext ∧
      countEnv.inferInUniverseContext noReuse .new universeContext countTerm = .ok ty ∧
      RespectsLevels countEnv noReuse .new universeContext.params countTerm := by
  have accepted : UniverseContext.new ["w"] [] = .ok ⟨["w"], [], withLowerBounds 1⟩ :=
    Result.ok_of_toOption (by decide +kernel)
  have inferred : (countEnv.inferInUniverseContext noReuse .new
      ⟨["w"], [], withLowerBounds 1⟩ countTerm).isOk = true := by decide +kernel
  cases h : countEnv.inferInUniverseContext noReuse .new ⟨["w"], [], withLowerBounds 1⟩
      countTerm with
  | error e =>
    rw [h] at inferred
    cases inferred
  | ok ty => exact ⟨_, ty, accepted, h, countEnv_built.respectsLevels noReuse .new _ h⟩

/-- A family `I.{u} : Sort (u + 1) → Type` whose recursive field stands at the index
    `Sort u`. -/
def leakyFamily : InductiveDecl :=
  let u : Level := .param "u"
  let atIndex (x : Expr) : Expr := .app (.const "I" [u]) x
  { name := "I"
    universeParams := ["u"]
    universeConstraints := []
    params := []
    indices := [⟨"x", .sort (.succ u)⟩]
    sort := .succ .zero
    constructors :=
      [⟨"I.nil", atIndex (.sort u)⟩, ⟨"I.mk", .pi "r" (atIndex (.sort u)) (atIndex (.sort u))⟩]
    recursor := some
      { name := "I.rec"
        universeParams := ["u", "v"]
        ty := .pi "motive"
            (.pi "x" (.sort (.succ u)) (.pi "t" (atIndex (.bvar 0)) (.sort (.param "v"))))
          (.pi "_" (apps (.bvar 0) [.sort u, .const "I.nil" [u]])
            (.pi "_" (.pi "_" (atIndex (.sort u)) (.pi "_" (apps (.bvar 2) [.sort u, .bvar 0])
                (apps (.bvar 3) [.sort u, .app (.const "I.mk" [u]) (.bvar 1)])))
              (.pi "x" (.sort (.succ u)) (.pi "t" (atIndex (.bvar 0))
                (apps (.bvar 4) [.bvar 1, .bvar 0])))))
        rules := none } }

def leakyEnv : Env := Env.new.insertAll (inductiveEntries leakyFamily)

/-- The recursor at `w`, on `I.mk I.nil`; the minor premise returns a function type between
    copies of the recursive result. -/
def leakyTerm : Expr :=
  let w : Level := .param "w"
  let atIndex (x : Expr) : Expr := .app (.const "I" [w]) x
  apps (.const "I.rec" [w, .succ (.succ .zero)])
    [.lam "x" (.sort (.succ w)) (.lam "t" (atIndex (.bvar 0)) (.sort (.succ .zero))),
      .sort .zero,
      .lam "r" (atIndex (.sort w))
        (.lam "ih" (.sort (.succ .zero)) (.pi "a" (.bvar 0) (.bvar 1))),
      .sort w, .app (.const "I.mk" [w]) (.const "I.nil" [w])]

/-- The parameter `u` of the declaration is left in the normal form of a term over `w`. -/
theorem whnf_leaks_declaration_param :
    ¬ ∀ env, Built (fun _ => True) env → ∀ alloc ctx universeContext term ty,
      env.inferInUniverseContext alloc ctx universeContext term = .ok ty →
        RespectsLevels env alloc ctx universeContext.params term := by
  intro claim
  have accepted : Env.new.addInductive noReuse leakyFamily = .ok leakyEnv :=
    Result.ok_of_toOption (by decide +kernel)
  have built : Built (fun _ => True) leakyEnv := .addInductive (.start .memoOff) trivial accepted
  have inferred : (leakyEnv.inferInUniverseContext noReuse .new ⟨["w"], [], withLowerBounds 1⟩
      leakyTerm).isOk = true := by decide +kernel
  have leaks : ((leakyEnv.whnf noReuse .new ["w"] leakyTerm).toOption.map fun value =>
      decide ("u" ∈ value.levelParams)) = some true := by decide +kernel
  have foreign : "u" ∉ leakyTerm.levelParams ∧ "u" ∉ ["w"] := by decide
  cases h : leakyEnv.inferInUniverseContext noReuse .new ⟨["w"], [], withLowerBounds 1⟩
      leakyTerm with
  | error e =>
    rw [h] at inferred
    cases inferred
  | ok ty =>
    have respects := claim leakyEnv built noReuse .new _ leakyTerm ty h
    cases hwhnf : leakyEnv.whnf noReuse .new ["w"] leakyTerm with
    | error e =>
      rw [hwhnf] at leaks
      cases leaks
    | ok value =>
      rw [hwhnf] at leaks
      have mem : "u" ∈ value.levelParams := by simpa [Except.toOption] using leaks
      rcases (respects value hwhnf).1 "u" mem with inTerm | inContext
      · exact foreign.1 inTerm
      · exact foreign.2 inContext

end NpaCore.Kernel
