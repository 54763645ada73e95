import NpaCore.Kernel.MemoInvisible
import NpaCore.Kernel.WhnfSoundness

/-!
# Soundness of conversion and inference

A successful comparison is a conversion, and an inferred type is derivable, for
terms in range. Both rest on the soundness of evaluation, whatever the memo
answers; the constraints of a constant hold when entailment against the universe
context is sound.

## Main results

- `DefeqSpends.sound`: terms that compare equal are convertible.
- `inferTerm_sound`: an inferred type is a type of the term.
-/

namespace NpaCore.Kernel

open NpaCore.Expr NpaCore.Level

/-! ### Definitional equality -/

variable {lhs rhs : Expr}

theorem quickSyntacticEq_conv {env : Env} (h : quickSyntacticEq lhs rhs = true) :
    Conv env lhs rhs := by
  fun_induction quickSyntacticEq lhs rhs with
  | case1 lhs rhs | case2 lhs rhs =>
    cases of_decide_eq_true h
    exact .refl _
  | case3 lhs lhsLevels rhs rhsLevels =>
    obtain ⟨hname, hlevels⟩ := Bool.and_eq_true_iff.mp h
    cases of_decide_eq_true hname
    cases of_decide_eq_true hlevels
    exact .refl _
  | case4 lhsFn lhsArg rhsFn rhsArg ihFn ihArg =>
    obtain ⟨hfn, harg⟩ := Bool.and_eq_true_iff.mp h
    exact .app (ihFn hfn) (ihArg harg)
  | case5 _ lhsTy lhsBody _ rhsTy rhsBody ihTy ihBody =>
    obtain ⟨hty, hbody⟩ := Bool.and_eq_true_iff.mp h
    exact .lam (ihTy hty) (ihBody hbody)
  | case6 _ lhsTy lhsBody _ rhsTy rhsBody ihTy ihBody =>
    obtain ⟨hty, hbody⟩ := Bool.and_eq_true_iff.mp h
    exact .pi (ihTy hty) (ihBody hbody)
  | case7 => cases h

variable {ctx : Ctx}

section Defeq

variable {env : Env}

theorem compareSpends_sound {compare : Ctx → Expr → Expr → Spending Error Bool}
    (hcompare : ∀ ctx lhs rhs fuel left, lhs.InRange → rhs.InRange →
      compare ctx lhs rhs fuel (.ok true) left → Conv env lhs rhs)
    {fuel left : Nat} (rangeLhs : lhs.InRange)
    (rangeRhs : rhs.InRange) (h : compareSpends compare ctx lhs rhs fuel (.ok true) left) :
    Conv env lhs rhs := by
  unfold compareSpends at h
  split at h
  next lhs rhs =>
    cases answer : levelEq lhs rhs with
    | true => exact .sort (levelEq_eval answer)
    | false =>
      rw [answer] at h
      cases h.1
  next lhs rhs =>
    have same : true = decide (lhs = rhs) := Except.ok.inj h.1
    cases of_decide_eq_true same.symm
    exact .refl _
  next lhsName lhsLevels rhsName rhsLevels =>
    have same : true = (decide (lhsName = rhsName) && levelsEq lhsLevels rhsLevels) :=
      Except.ok.inj h.1
    obtain ⟨hname, hlevels⟩ := Bool.and_eq_true_iff.mp same.symm
    cases of_decide_eq_true hname
    exact .const (levelsEq_eval hlevels)
  next lhsFn lhsArg rhsFn rhsArg =>
    obtain ⟨middle, functions, arguments⟩ := Spending.both_true h
    exact .app (hcompare _ _ _ _ _ rangeLhs.1 rangeRhs.1 functions)
      (hcompare _ _ _ _ _ rangeLhs.2 rangeRhs.2 arguments)
  next =>
    obtain ⟨middle, types, bodies⟩ := Spending.both_true h
    exact .pi (hcompare _ _ _ _ _ rangeLhs.1 rangeRhs.1 types)
      (hcompare _ _ _ _ _ rangeLhs.2 rangeRhs.2 bodies)
  next =>
    obtain ⟨middle, types, bodies⟩ := Spending.both_true h
    exact .lam (hcompare _ _ _ _ _ rangeLhs.1 rangeRhs.1 types)
      (hcompare _ _ _ _ _ rangeLhs.2 rangeRhs.2 bodies)
  next => cases h.1

theorem WhnfSpends.sound (safe : RecursorsSafe env) (range : env.InRange)
    {kind : ResourceLimitKind} {term value : Expr} {fuel left : Nat} (rangeTerm : term.InRange)
    (h : WhnfSpends env ctx kind term fuel (.ok value) left) :
    Conv env term value ∧ value.InRange := by
  obtain ⟨_, _, evaluates⟩ := whnfSpends_iff.mp h
  exact evaluates.sound safe range rangeTerm

/-- A comparison of two terms goes by their forms, or stops where the terms are the same up to
    binder names. -/
theorem defeqSpendsWithin_sound (safe : RecursorsSafe env) (range : env.InRange) {depth : Nat}
    {fuel left : Nat} (rangeLhs : lhs.InRange)
    (rangeRhs : rhs.InRange) (h : DefeqSpendsWithin env depth ctx lhs rhs fuel (.ok true) left) :
    Conv env lhs rhs := by
  induction depth generalizing ctx lhs rhs fuel left with
  | zero => cases h
  | succ depth ih =>
    rcases h with ⟨_, _, failed⟩ | ⟨_, afterSpending, _, h⟩
    · cases failed
    · split at h
      next quick => exact quickSyntacticEq_conv quick
      next =>
        rcases h with ⟨_, _, failed⟩ | ⟨lhsWhnf, afterLhs, reducedLhs, h⟩
        · cases failed
        rcases h with ⟨_, _, failed⟩ | ⟨rhsWhnf, afterRhs, reducedRhs, h⟩
        · cases failed
        obtain ⟨toLhs, rangeLhsWhnf⟩ := reducedLhs.sound safe range rangeLhs
        obtain ⟨toRhs, rangeRhsWhnf⟩ := reducedRhs.sound safe range rangeRhs
        have same : Conv env lhsWhnf rhsWhnf := by
          refine compareSpends_sound ?_ rangeLhsWhnf rangeRhsWhnf h
          intro ctx lhs rhs fuel left rangeLhs rangeRhs compared
          exact ih rangeLhs rangeRhs compared
        exact .trans toLhs (.trans same (.symm toRhs))

theorem DefeqSpends.sound (safe : RecursorsSafe env) (range : env.InRange)
    {fuel left : Nat} (rangeLhs : lhs.InRange) (rangeRhs : rhs.InRange)
    (h : DefeqSpends env ctx lhs rhs fuel (.ok true) left) : Conv env lhs rhs := by
  obtain ⟨depth, within⟩ := h
  exact defeqSpendsWithin_sound safe range rangeLhs rangeRhs within

end Defeq

/-! ### Runs with a faithful memo -/

/-- From a session with a faithful memo the run returns what has the property, if it
    succeeds, and leaves the memo faithful. -/
def Sound (env : Env) {α : Type} (run : Op α) (Q : α → Prop) : Prop :=
  Run.Ensures (FaithfulSession env) run fun a s => FaithfulSession env s ∧ Q a

section Runs

variable {env : Env} {α β : Type} {Q : α → Prop}

theorem sound_pure {a : α} (h : Q a) : Sound env (pure a) Q :=
  Run.ensures_pure fun _ hs => ⟨hs, h⟩

theorem sound_lift {x : Result α} (h : ∀ a, x = .ok a → Q a) :
    Sound env (Run.lift x) Q :=
  Run.ensures_lift fun _ a hs hx => ⟨hs, h a hx⟩

theorem sound_fail {error : Error} : Sound env (Run.fail error : Op α) Q :=
  Run.ensures_fail

theorem sound_bind {R : α → Prop} {Q : β → Prop} {x : Op α} {f : α → Op β} (hx : Sound env x R)
    (hf : ∀ a, R a → Sound env (f a) Q) : Sound env (x >>= f) Q := by
  refine Run.ensures_bind hx fun a => ?_
  intro s b t hs hrun
  exact hf a hs.2 s b t hs.1 hrun

theorem sound_setFuel (kind : ResourceLimitKind) (amount : Session → Nat) :
    Sound env (Run.modify fun s => s.setFuel kind (amount s)) fun _ => True :=
  Run.ensures_modify fun s faithful => ⟨faithful.setFuel (amount s), trivial⟩

theorem sound_of_realises {kind : ResourceLimitKind} {run : Op α} {spec : Spending Error α}
    (realised : Realises env kind (fun _ => True) run spec)
    (h : ∀ a fuel left, spec fuel (.ok a) left → Q a) : Sound env run Q := by
  intro s a t faithful returned
  obtain ⟨left, spent, _, kept⟩ := realised s faithful trivial
  rw [returned] at spent kept
  exact ⟨kept, h a _ left spent⟩

/-- What a run returns from a new session. -/
theorem Sound.result {run : Op α} (h : Sound env run Q) {whnfFuel conversionFuel : Nat} {a : α}
    (returned : (run (env.newSession whnfFuel conversionFuel)).1 = .ok a) : Q a := by
  have whole : run (env.newSession whnfFuel conversionFuel) =
      (.ok a, (run (env.newSession whnfFuel conversionFuel)).2) := by
    rw [← returned]
  exact (h _ a _ (faithful_newSession env whnfFuel conversionFuel) whole).2

end Runs

/-! ### Universe constraints of a constant -/

theorem ensureLevelWf_over {delta : List String} {level : Level}
    (h : ensureLevelWf delta level = .ok ()) : LevelOver delta level := by
  induction level with
  | zero => simp [LevelOver, Level.params]
  | succ inner ih => exact ih h
  | max lhs rhs ihl ihr | imax lhs rhs ihl ihr =>
    simp only [ensureLevelWf, Result.bind_eq_ok] at h
    obtain ⟨_, hlhs, hrhs⟩ := h
    intro p hp
    rcases List.mem_append.mp hp with hp | hp
    · exact ihl hlhs p hp
    · exact ihr hrhs p hp
  | param name =>
    simp only [ensureLevelWf, Result.bind_eq_ok, Result.ensure_eq_ok] at h
    obtain ⟨_, _, known⟩ := h
    simpa [LevelOver, Level.params] using known

theorem lookupParam_of_findIdx {params : List String} {levels : List Level} {name : String}
    {index : Nat} {level : Level} (hindex : params.findIdx? (· = name) = some index)
    (hlevel : levels[index]? = some level) : lookupParam params levels name = some level := by
  induction params generalizing levels index with
  | nil => cases hindex
  | cons first rest ih =>
    rw [List.findIdx?_cons] at hindex
    cases levels with
    | nil => cases hlevel
    | cons head tail =>
      by_cases same : first = name
      · simp only [same, decide_true, if_true, Option.some.injEq] at hindex
        subst hindex
        simpa [lookupParam, same] using hlevel
      · simp only [same, decide_false, Bool.false_eq_true, if_false, Option.map_eq_some_iff]
          at hindex
        obtain ⟨before, hbefore, rfl⟩ := hindex
        have later : lookupParam rest tail name = some level := ih hbefore hlevel
        simpa [lookupParam, same] using later

/-- The parameters of the constraints get the levels they have in the declaration. -/
theorem declarationConstraintLevels_lookup {name : String} {params constraintParams : List String}
    {levels constraintLevels : List Level}
    (h : declarationConstraintLevels name params levels constraintParams = .ok constraintLevels) :
    ∀ p ∈ constraintParams,
      lookupParam constraintParams constraintLevels p = lookupParam params levels p := by
  rw [declarationConstraintLevels, Result.collect_eq_ok] at h
  induction h with
  | nil => simp
  | @cons first level constraintParams constraintLevels head _ ih =>
    simp only [Result.bind_eq_ok, Result.okOr_eq_ok] at head
    obtain ⟨index, hindex, hlevel⟩ := head
    have here : lookupParam params levels first = some level :=
      lookupParam_of_findIdx hindex hlevel
    intro p hp
    by_cases same : first = p
    · subst same
      simp [lookupParam, here]
    · have rest : p ∈ constraintParams := by simpa [Ne.symm same] using hp
      simpa [lookupParam, same] using ih p rest

theorem holds_normalizeConstraint (ρ : String → Nat) (constraint : UniverseConstraint) :
    (normalizeConstraint constraint).Holds ρ ↔ constraint.Holds ρ := by
  simp only [UniverseConstraint.Holds, normalizeConstraint, normalizeLevel_eval]

/-- Entailment against the context is sound for the valuations of its constraints. -/
def EntailmentSound (universeContext : UniverseContext) : Prop :=
  ∀ lhs rhs, universeContext.entailsLevelLe lhs rhs = .ok true →
    ∀ ρ, Satisfies ρ universeContext.constraints → lhs.eval ρ ≤ rhs.eval ρ

variable {universeContext : UniverseContext}

theorem entails_sound (sound : EntailmentSound universeContext)
    {obligations : List UniverseConstraint} (h : universeContext.entails obligations = .ok ())
    {ρ : String → Nat} (hρ : Satisfies ρ universeContext.constraints) :
    Satisfies ρ obligations := by
  rw [UniverseContext.entails, Result.forEach_eq_ok] at h
  intro obligation member
  rw [← holds_normalizeConstraint]
  have entailed := h obligation member
  cases relation : (normalizeConstraint obligation).relation with
  | le =>
    simp only [relation, Result.bind_eq_ok, Result.ensure_eq_ok] at entailed
    obtain ⟨answer, asked, positive⟩ := entailed
    subst positive
    simpa only [UniverseConstraint.Holds, relation] using sound _ _ asked ρ hρ
  | eq =>
    simp only [relation, Result.bind_eq_ok] at entailed
    obtain ⟨forward, hforward, entailed⟩ := entailed
    have below : forward = true := by
      cases forward with
      | true => rfl
      | false => simp [bind, Except.bind, Result.ensure] at entailed
    subst below
    simp only [if_true, Result.bind_eq_ok, Result.ensure_eq_ok] at entailed
    obtain ⟨backward, hbackward, positive⟩ := entailed
    subst positive
    have le := sound _ _ hforward ρ hρ
    have ge := sound _ _ hbackward ρ hρ
    simpa only [UniverseConstraint.Holds, relation] using Nat.le_antisymm le ge

theorem mem_sortDedupConstraints {constraint : UniverseConstraint}
    {constraints : List UniverseConstraint} :
    constraint ∈ UniverseContext.sortDedupConstraints constraints ↔ constraint ∈ constraints := by
  rw [UniverseContext.sortDedupConstraints, mem_dedupConsecutive, List.mem_insertionSort]

theorem ensureUniverseConstraintsWf_over {delta : List String}
    {constraints : List UniverseConstraint}
    (h : ensureUniverseConstraintsWf delta constraints = .ok ()) :
    ∀ c ∈ constraints, LevelOver delta c.lhs ∧ LevelOver delta c.rhs := by
  simp only [ensureUniverseConstraintsWf, Result.bind_eq_ok, Result.forEach_eq_ok,
    ensureCanonicalLevel] at h
  obtain ⟨_, each, _⟩ := h
  intro c hc
  obtain ⟨_, ⟨_, hlhs, _⟩, _, hrhs, _⟩ := each c hc
  exact ⟨ensureLevelWf_over hlhs, ensureLevelWf_over hrhs⟩

theorem holds_of_eval {ρ σ : String → Nat} {source target : UniverseConstraint}
    (relation : source.relation = target.relation) (lhs : source.lhs.eval ρ = target.lhs.eval σ)
    (rhs : source.rhs.eval ρ = target.rhs.eval σ) : source.Holds ρ ↔ target.Holds σ := by
  simp only [UniverseConstraint.Holds, relation, lhs, rhs]

theorem checkConstConstraints_sound {env : Env}
    (sound : EntailmentSound universeContext) {name : String} {decl : Decl} {levels : List Level}
    (h : checkConstConstraints env universeContext name decl levels = .ok ()) :
    ConstraintsHold env universeContext decl levels := by
  simp only [checkConstConstraints, Result.bind_eq_ok] at h
  obtain ⟨⟨constraintParams, constraints⟩, hcontext, h⟩ := h
  refine ⟨constraintParams, constraints, hcontext, ?_⟩
  dsimp only at h
  split at h
  next none =>
    intro ρ _ constraint member
    rw [List.isEmpty_iff.mp none] at member
    cases member
  next =>
    simp only [Result.bind_eq_ok] at h
    obtain ⟨constraintLevels, hlevels, obligations, hobligations, hentails⟩ := h
    have same := declarationConstraintLevels_lookup hlevels
    have entailed : universeContext.entails obligations = .ok () := by
      cases answer : universeContext.entails obligations with
      | ok u => rfl
      | error e =>
        rw [answer] at hentails
        cases hentails
    simp only [UniverseContext.substituteConstraints, Result.bind_eq_ok, Except.ok.injEq]
      at hobligations
    obtain ⟨_, _, params, hparams, _, hwf, _, _, rfl⟩ := hobligations
    obtain ⟨rfl, _⟩ := validateUniverseParams_spec hparams
    intro ρ hρ constraint member
    -- inside the constraints both substitutions give a parameter the same level
    have agree : ∀ level, LevelOver params level →
        (substituteLevel params constraintLevels level).eval ρ =
          level.eval (substValuation decl.universeParams levels ρ) := by
      intro level wellFormed
      rw [substituteLevel_eval]
      apply eval_congr
      intro p hp
      simp only [substValuation, same p (wellFormed p hp)]
    obtain ⟨overLhs, overRhs⟩ := ensureUniverseConstraintsWf_over hwf constraint member
    have obligation := entails_sound sound entailed hρ _
      (mem_sortDedupConstraints.mpr (List.mem_map_of_mem member))
    exact (holds_of_eval (by rfl) (agree _ overLhs) (agree _ overRhs)).mp obligation

theorem inferConstType_sound {env : Env} (range : env.InRange)
    (sound : EntailmentSound universeContext) {name : String} {levels : List Level}
    {ty : Expr} (h : inferConstType env universeContext name levels = .ok ty) :
    HasType env universeContext ctx (.const name levels) ty ∧ ty.InRange := by
  simp only [inferConstType, Result.bind_eq_ok, Result.okOr_eq_ok, Result.ensure_eq_ok,
    Result.forEach_eq_ok, beq_iff_eq, Except.ok.injEq] at h
  obtain ⟨decl, hdecl, _, arity, _, wellFormed, _, hconstraints, rfl⟩ := h
  refine ⟨.const hdecl arity (fun level hlevel => ensureLevelWf_over (wellFormed level hlevel))
    (checkConstConstraints_sound sound hconstraints), ?_⟩
  exact inRange_substLevelsExpr.mpr (range name decl hdecl).type

/-! ### Contexts in range -/

def Ctx.InRange (ctx : Ctx) : Prop := ∀ ty ∈ ctx.locals, ty.InRange

theorem Ctx.InRange.pushAssumption (h : ctx.InRange) {ty : Expr} (range : ty.InRange) :
    (ctx.pushAssumption ty).InRange := by
  intro other mem
  rcases List.mem_append.mp mem with mem | mem
  · exact h other mem
  · rw [List.mem_singleton.mp mem]
    exact range

theorem Ctx.lookupType_eq (range : ctx.InRange) {index : Nat} {ty : Expr}
    (small : index < 0x80000000) (h : ctx.lookupType index = .ok ty) :
    ∃ declared, ctx.lookup index = .ok declared ∧ ty = declared.lift (index + 1) 0 ∧
      ty.InRange := by
  simp only [Ctx.lookupType, Result.bind_eq_ok] at h
  obtain ⟨declared, found, shifted⟩ := h
  have mem : declared ∈ ctx.locals := by
    simp only [Ctx.lookup, Result.okOr_eq_ok] at found
    split at found
    next => exact List.mem_of_getElem? found
    next => cases found
  rw [asI32_of_lt small] at shifted
  have lifted : ty = declared.lift (index + 1) 0 ∧ ty.InRange :=
    shift_eq (range declared mem) shifted
  exact ⟨declared, found, lifted⟩

/-! ### Inference -/

section Infer

variable {env : Env} (layout : Layout) (policy : FuelPolicy) {universeContext : UniverseContext}

theorem refuel_sound (kind : ResourceLimitKind) (limit : Nat) :
    Sound env (refuel policy kind limit) fun _ => True := by
  cases policy with
  | perQuestion => exact sound_setFuel kind _
  | pooled => exact sound_pure trivial

theorem whnfQuestion_sound (safe : RecursorsSafe env) (range : env.InRange) (ctx : Ctx)
    (origin : MemoExprOrigin) {term : Expr} (rangeTerm : term.InRange) :
    Sound env (whnfQuestion env layout policy universeContext ctx origin term)
      fun value => Conv env term value ∧ value.InRange := by
  apply sound_bind (refuel_sound policy .whnf whnfFuelLimit)
  intro _ _
  refine sound_of_realises (whnfMachine_realises origin term) ?_
  intro value fuel left spent
  exact spent.sound safe range rangeTerm

theorem defeqQuestion_sound (safe : RecursorsSafe env) (range : env.InRange) (ctx : Ctx)
    (lhsOrigin rhsOrigin : MemoExprOrigin) (rangeLhs : lhs.InRange) (rangeRhs : rhs.InRange) :
    Sound env (defeqQuestion env layout policy universeContext ctx lhs lhsOrigin rhs rhsOrigin)
      fun b => b = true → Conv env lhs rhs := by
  apply sound_bind (refuel_sound policy .conversion defeqFuelLimit)
  intro _ _
  refine sound_of_realises (isDefeqWithRemainingFuel_realises layout _ ctx lhs _ rhs _) ?_
  rintro _ fuel left spent rfl
  exact spent.sound safe range rangeLhs rangeRhs

/-- The term has the type, which is in range. -/
def Infers (env : Env) (universeContext : UniverseContext) (ctx : Ctx) (term ty : Expr) : Prop :=
  HasType env universeContext ctx term ty ∧ ty.InRange

theorem expectSortFrom_sound (safe : RecursorsSafe env) (range : env.InRange)
    {term : Expr} {inferred : Op Expr}
    (hinferred : Sound env inferred (Infers env universeContext ctx term)) :
    Sound env (expectSortFrom env layout policy universeContext ctx inferred)
      fun level => HasType env universeContext ctx term (.sort level) := by
  apply sound_bind hinferred
  rintro ty ⟨hty, rangeTy⟩
  apply sound_bind (whnfQuestion_sound layout policy safe range ctx .fresh rangeTy)
  rintro actual ⟨converts, _⟩
  cases actual with
  | sort level => exact sound_pure (.conv hty converts)
  | bvar _ | const _ _ | app _ _ | lam _ _ _ | pi _ _ _ => exact sound_fail

theorem checkFrom_sound (safe : RecursorsSafe env) (range : env.InRange)
    {term expected : Expr} {inferred : Op Expr} (expectedOrigin : MemoExprOrigin)
    (rangeExpected : expected.InRange)
    (hinferred : Sound env inferred (Infers env universeContext ctx term)) :
    Sound env (checkFrom env layout policy universeContext ctx inferred expected expectedOrigin)
      fun _ => HasType env universeContext ctx term expected := by
  apply sound_bind hinferred
  rintro actual ⟨hactual, rangeActual⟩
  apply sound_bind (defeqQuestion_sound layout policy safe range ctx .fresh expectedOrigin
    rangeActual rangeExpected)
  intro answer converts
  cases answer with
  | true => exact sound_pure (.conv hactual (converts rfl))
  | false => exact sound_fail

/-- One case for each rule of the typing relation; the conversion rule comes in where the
    code takes a weak head normal form or compares two types. -/
theorem inferTerm_sound (safe : RecursorsSafe env) (range : env.InRange)
    (sound : EntailmentSound universeContext) {term : Expr} (rangeCtx : ctx.InRange)
    (rangeTerm : term.InRange) :
    Sound env (inferTerm env layout policy universeContext ctx term)
      (Infers env universeContext ctx term) := by
  induction term generalizing ctx with
  | sort level =>
    apply sound_bind (sound_lift fun _ h => h)
    intro _ wellFormed
    exact sound_pure ⟨.sort (ensureLevelWf_over wellFormed), trivial⟩
  | bvar index =>
    refine sound_lift fun ty hty => ?_
    obtain ⟨declared, found, rfl, rangeTy⟩ := Ctx.lookupType_eq rangeCtx rangeTerm hty
    exact ⟨.bvar found, rangeTy⟩
  | const name levels => exact sound_lift fun ty hty => inferConstType_sound range sound hty
  | pi binder ty body ihTy ihBody =>
    apply sound_bind (expectSortFrom_sound layout policy safe range (ihTy rangeCtx rangeTerm.1))
    intro u hu
    have rangeBody := rangeCtx.pushAssumption rangeTerm.1
    apply sound_bind (expectSortFrom_sound layout policy safe range (ihBody rangeBody rangeTerm.2))
    intro v hv
    have normal : LevelEquiv (.imax u v) (mkIMax u v) := by
      intro ρ
      simp only [mkIMax_eval, Level.eval]
    exact sound_pure ⟨.conv (.pi hu hv) (.sort normal), trivial⟩
  | lam binder ty body ihTy ihBody =>
    apply sound_bind (expectSortFrom_sound layout policy safe range (ihTy rangeCtx rangeTerm.1))
    intro u hu
    apply sound_bind (ihBody (rangeCtx.pushAssumption rangeTerm.1) rangeTerm.2)
    rintro bodyTy ⟨hbody, rangeBodyTy⟩
    exact sound_pure ⟨.lam hu hbody, rangeTerm.1, rangeBodyTy⟩
  | app fn arg ihFn ihArg =>
    apply sound_bind (ihFn rangeCtx rangeTerm.1)
    rintro fnTy ⟨hfn, rangeFnTy⟩
    apply sound_bind (whnfQuestion_sound layout policy safe range ctx .fresh rangeFnTy)
    rintro actual ⟨converts, rangeActual⟩
    cases actual with
    | pi binder ty body =>
      apply sound_bind (checkFrom_sound layout policy safe range .retained rangeActual.1
        (ihArg rangeCtx rangeTerm.2))
      intro _ harg
      refine sound_lift fun result hresult => ?_
      obtain ⟨rfl, rangeResult⟩ := instantiate_eq rangeActual.2 rangeTerm.2 hresult
      exact ⟨.app (.conv hfn converts) harg, rangeResult⟩
    | sort _ | bvar _ | const _ _ | app _ _ | lam _ _ _ => exact sound_fail

end Infer

end NpaCore.Kernel
