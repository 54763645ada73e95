import NpaCore.Kernel.MemoInvisible

/-!
# The recursive definition of weak head normal forms

`whnf_recursive_oracle` of `env.rs`, the definition the explicit-stack machine is
tested against: it calls itself for the function of an application and for the
major premise of a recursor. The machine is that definition with the call stack
written out, so both are the same reduction with the same cost.
-/

namespace NpaCore.Kernel

open NpaCore.Expr

/-! ### Reduction of a recursor -/

/-- The arguments of a recursive call before the field: those of the recursor before its
    indices and the instantiated indices. -/
def oracleRecursiveArgs (args : List Expr) (indexStart : Nat) (sourceArgs indexArgs : List Expr) :
    Result (List Expr) := do
  let indexArgs ← Result.collect indexArgs fun arg => instantiateConstructorArgs arg sourceArgs
  .ok (args.take indexStart ++ indexArgs)

/-- One turn of the loop over the fields of `recursive_oracle_finish_recursor`. -/
def oracleField (env : Env) (recursorName : String) (levels : List Level) (args : List Expr)
    (indexStart : Nat) (group : Option MutualGroupInfo) (data : InductiveDecl)
    (constructorArgs : List Expr) (reduced : Expr) (field : (Expr × Expr) × Nat) : Result Expr :=
  let ((fieldArg, fieldDomain), fieldIndex) := field
  let sourceContextLen := data.params.length + fieldIndex
  let sourceArgs := constructorArgs.take sourceContextLen
  let reduced := .app reduced fieldArg
  match group with
  | some group =>
    match directMutualRecursiveIndexArgs env fieldDomain sourceContextLen group.inductives with
    | .error _ => .ok reduced
    | .ok (fieldInductive, indexArgs) => do
      let recursorName ← Result.okOr (group.recursors.lookup fieldInductive)
        (.invalidInductive (fieldInductive ++ " has no mutual recursor"))
      let recursiveData ← env.inductiveData fieldInductive
      let recursiveArgs ← oracleRecursiveArgs args indexStart sourceArgs indexArgs
      Result.ensure (recursiveArgs.length == indexStart + recursiveData.indices.length)
        (.invalidInductive (recursorName ++ " recursive call index arity mismatch"))
      .ok (.app reduced (apps (.const recursorName levels) (recursiveArgs ++ [fieldArg])))
  | none =>
    if isDirectRecursiveDomain data fieldDomain sourceContextLen then do
      let indexArgs ← directRecursiveIndexArgs data fieldDomain sourceContextLen
      let recursiveArgs ← oracleRecursiveArgs args indexStart sourceArgs indexArgs
      .ok (.app reduced (apps (.const recursorName levels) (recursiveArgs ++ [fieldArg])))
    else .ok reduced

def oracleFinishRecursor (env : Env) (recursorName : String) (levels : List Level)
    (inductiveName : String) (rules : RecursorRules) (args : List Expr) (majorWhnf : Expr) :
    Result (Option Expr) :=
  match majorWhnf.collectApps with
  | (.const constructorName _, constructorArgs) =>
    if !env.constructorBelongsTo constructorName inductiveName then .ok none
    else do
      let data ← env.inductiveData inductiveName
      let group := env.mutualGroup inductiveName
      match data.constructors.findIdx? (fun c => c.name = constructorName) with
      | none => .ok none
      | some constructorIndex => do
        let offset ← blockConstructorOffset env group inductiveName
        match args[rules.minorStart + offset + constructorIndex]?,
            data.constructors[constructorIndex]? with
        | some minor, some constructor =>
          let parameterCount := data.params.length
          let fieldArgs := constructorArgs.drop parameterCount
          let fieldDomains := constructor.ty.peelPiDomains.1.drop parameterCount
          if constructorArgs.length < parameterCount then .ok none
          else if fieldArgs.length < fieldDomains.length then .ok none
          else do
            let indexStart := rules.majorIndex - data.indices.length
            let reduced ← Result.foldEach (fieldArgs.zip fieldDomains).zipIdx minor
              (oracleField env recursorName levels args indexStart group data constructorArgs)
            .ok (some (apps reduced (args.drop (rules.majorIndex + 1))))
        | _, _ => .ok none
  | _ => .ok none

section Oracle

variable (env : Env) (ctx : Ctx) (kind : ResourceLimitKind)

/-- `recursive_oracle_reduce_recursor`, over the reduction of the major premise. -/
def oracleReduceRecursor (whnf : Expr → Op Expr) (term : Expr) : Op (Option Expr) :=
  match term.collectApps with
  | (.const recursorName levels, args) =>
    match env.decl recursorName with
    | some (.recursorDecl _ _ _ inductiveName rules) =>
      match args[rules.majorIndex]? with
      | none => pure none
      | some major => do
        let majorWhnf ← whnf major
        Run.lift (oracleFinishRecursor env recursorName levels inductiveName rules args majorWhnf)
    | _ => pure none
  | _ => pure none

/-- The loop of `whnf_recursive_oracle`, for so many calls and turns inside each other. -/
def oracleLoop : Nat → Expr → Op Expr
  | 0, _ => Run.fail (.resourceLimit kind)
  | depth + 1, current => do
    spendFuel kind
    match current with
    | .bvar index => do
      Run.lift (ctx.ensureBound index)
      pure (.bvar index)
    | .const name levels =>
      match unfoldDefinition env name levels with
      | some value => oracleLoop depth value
      | none => pure (.const name levels)
    | .app fn argument => do
      let function ← oracleLoop depth fn
      match function with
      | .lam _ _ body => do
        let current ← Run.lift (Expr.instantiate body argument)
        oracleLoop depth current
      | function => do
        match ← oracleReduceRecursor env (oracleLoop depth) (.app function argument) with
        | some reduced => oracleLoop depth reduced
        | none => pure (.app function argument)
    | current => pure current

/-- Every call and every turn spends a unit first, so they are never more inside each other
    than the fuel pays for (`oracleLoop_realises`). -/
def whnfRecursiveOracle (term : Expr) : Op Expr := do
  let session ← Run.get
  oracleLoop env ctx kind (session.fuel kind + 1) term

end Oracle

/-! ### Both recursor reductions agree -/

/-- The arguments before the indices are as many as the source counts, so the check on all
    arguments of the call is the one on its index arguments. -/
theorem oracleField_eq (env : Env) (recursorName : String) (levels : List Level)
    {args : List Expr} {indexStart : Nat} (enough : indexStart ≤ args.length)
    (group : Option MutualGroupInfo) (data : InductiveDecl) (constructorArgs : List Expr)
    (reduced : Expr) (field : (Expr × Expr) × Nat) :
    oracleField env recursorName levels args indexStart group data constructorArgs reduced field =
      applyField env group data ⟨recursorName, levels, args.take indexStart, constructorArgs⟩
        reduced field := by
  obtain ⟨⟨fieldArg, fieldDomain⟩, fieldIndex⟩ := field
  have before : (args.take indexStart).length = indexStart := by
    rw [List.length_take, Nat.min_eq_left enough]
  cases group with
  | none =>
    simp only [oracleField, applyField, recursiveCall]
    cases found : directRecursiveIndexArgs data fieldDomain (data.params.length + fieldIndex) with
    | error _ =>
      have other : ¬isDirectRecursiveDomain data fieldDomain (data.params.length + fieldIndex) := by
        rw [isDirectRecursiveDomain, found]
        exact Bool.false_ne_true
      rw [if_neg other]
      rfl
    | ok indexArgs =>
      have direct : isDirectRecursiveDomain data fieldDomain (data.params.length + fieldIndex) := by
        rw [isDirectRecursiveDomain, found]
        rfl
      rw [if_pos direct]
      -- both instantiate the index arguments first; what follows only differs in its grouping
      show (do
        let recursiveArgs ← oracleRecursiveArgs args indexStart _ indexArgs
        _) = (do
        let call ← (do
          let indexArgs ← Result.collect indexArgs _
          _)
        _)
      rw [oracleRecursiveArgs]
      cases Result.collect indexArgs fun arg => instantiateConstructorArgs arg
          (constructorArgs.take (data.params.length + fieldIndex)) with
      | error _ => rfl
      | ok _ => rfl
  | some group =>
    simp only [oracleField, applyField, recursiveCall]
    cases directMutualRecursiveIndexArgs env fieldDomain (data.params.length + fieldIndex)
        group.inductives with
    | error _ => rfl
    | ok found =>
      obtain ⟨fieldInductive, indexArgs⟩ := found
      simp only [oracleRecursiveArgs]
      cases group.recursors.lookup fieldInductive with
      | none => rfl
      | some recursorName =>
        cases env.inductiveData fieldInductive with
        | error _ => rfl
        | ok recursiveData =>
          cases Result.collect indexArgs fun arg => instantiateConstructorArgs arg
              (constructorArgs.take (data.params.length + fieldIndex)) with
          | error _ => rfl
          | ok indexArgs =>
            -- the oracle counts all arguments of the call, `recursiveCall` the indices only
            have arity : ((args.take indexStart ++ indexArgs).length ==
                indexStart + recursiveData.indices.length) =
                (indexArgs.length == recursiveData.indices.length) := by
              rw [List.length_append, before, Bool.eq_iff_iff, beq_iff_eq, beq_iff_eq]
              omega
            show (do
              Result.ensure ((args.take indexStart ++ indexArgs).length ==
                indexStart + recursiveData.indices.length) _
              _) = (do
              let call ← (do
                Result.ensure (indexArgs.length == recursiveData.indices.length) _
                _)
              _)
            rw [arity]
            cases indexArgs.length == recursiveData.indices.length with
            | false => rfl
            | true => rfl

theorem oracleFinishRecursor_eq (env : Env) {application : Expr} {recursorName : String}
    {levels : List Level} {args : List Expr} {rules : RecursorRules}
    (spine : application.collectApps = (.const recursorName levels, args))
    (major : rules.majorIndex < args.length) (inductiveName : String) (majorWhnf : Expr) :
    oracleFinishRecursor env recursorName levels inductiveName rules args majorWhnf =
      finishRecursorReduction env application inductiveName rules majorWhnf := by
  have fields : ∀ group data constructorArgs,
      oracleField env recursorName levels args (rules.majorIndex - data.indices.length) group data
        constructorArgs = applyField env group data ⟨recursorName, levels,
          args.take (rules.majorIndex - data.indices.length), constructorArgs⟩ := by
    intro group data constructorArgs
    funext reduced field
    exact oracleField_eq env recursorName levels (by omega) group data constructorArgs reduced field
  unfold oracleFinishRecursor finishRecursorReduction
  rw [spine]
  simp only [fields, applyMinor]
  rcases majorWhnf.collectApps with ⟨head, constructorArgs⟩
  cases head <;> rfl

/-! ### The recursive definition is the reduction -/

section Realised

variable {env : Env} {ctx : Ctx} {kind : ResourceLimitKind} {pre : Nat → Prop}

variable {frames : List ReductionFrame}

/-- A step of the reduction that takes one unit. -/
theorem finishes_reduce {current : Expr} {t : ReductionState} {fuel left : Nat} {r : Result Expr}
    (move : reduceMove env ctx current frames = .next t)
    (rest : (reductionMachine env ctx).Finishes (.resourceLimit kind) t fuel r left) :
    (reductionMachine env ctx).Finishes (.resourceLimit kind) ⟨.reduce current, frames⟩
      (fuel + 1) r left := by
  have step : (reductionMachine env ctx).move ⟨.reduce current, frames⟩ = .next t := move
  rw [Nat.add_comm]
  exact .next step rest

/-- A step of the reduction that takes nothing. -/
theorem finishes_resume {value : Expr} {t : ReductionState}
    {fuel left : Nat} {r : Result Expr} (move : resumeMove env value frames = .next t)
    (rest : (reductionMachine env ctx).Finishes (.resourceLimit kind) t fuel r left) :
    (reductionMachine env ctx).Finishes (.resourceLimit kind) ⟨.resume value, frames⟩
      fuel r left := by
  have step : (reductionMachine env ctx).move ⟨.resume value, frames⟩ = .next t := move
  have finished : (reductionMachine env ctx).Finishes (.resourceLimit kind)
      ⟨.resume value, frames⟩ (0 + fuel) r left := .next step rest
  rwa [Nat.zero_add] at finished

theorem finishes_resume_error {value : Expr} {e : Error}
    {fuel : Nat} (move : resumeMove env value frames = .fail e) :
    (reductionMachine env ctx).Finishes (.resourceLimit kind) ⟨.resume value, frames⟩
      fuel (.error e) fuel := by
  have step : (reductionMachine env ctx).move ⟨.resume value, frames⟩ = .fail e := move
  have finished : (reductionMachine env ctx).Finishes (.resourceLimit kind)
      ⟨.resume value, frames⟩ (0 + fuel) (.error e) fuel := .fail step
  rwa [Nat.zero_add] at finished

/-- A value under no frame is returned. -/
theorem finishes_complete (value : Expr) (fuel : Nat) :
    (reductionMachine env ctx).Finishes (.resourceLimit kind) ⟨.complete value, []⟩
      fuel (.ok value) fuel := by
  have step : (reductionMachine env ctx).move ⟨.complete value, []⟩ =
      .next ⟨.resume value, []⟩ := rfl
  have stop : (reductionMachine env ctx).move ⟨.resume value, []⟩ = .done value := rfl
  have finished : (reductionMachine env ctx).Finishes (.resourceLimit kind)
      ⟨.complete value, []⟩ (0 + (0 + fuel)) (.ok value) fuel := .next step (.done stop)
  rwa [Nat.zero_add, Nat.zero_add] at finished

/-- A call, and what the frames below it do with its value. -/
theorem realises_under {whnf : Op Expr} {rest : Expr → Op Expr} {term : Expr}
    {below : List ReductionFrame} (closed : ∀ fuel left, pre fuel → left ≤ fuel → pre left)
    (call : Realises env kind pre whnf (WhnfSpends env ctx kind term))
    (h : ∀ value, Realises env kind pre (rest value)
      ((reductionMachine env ctx).Finishes (.resourceLimit kind) ⟨.resume value, below⟩)) :
    Realises env kind pre (whnf >>= rest)
      ((reductionMachine env ctx).Finishes (.resourceLimit kind) ⟨.reduce term, below⟩) := by
  refine (realises_bind call fun value => (h value).mono ?_ fun _ _ _ _ found => found).mono
    (fun _ ok => ok) fun _ _ _ _ found => whnfSpends_under found
  rintro middle ⟨fuel, ok, way⟩
  exact closed fuel middle ok ((regular_whnfSpends kind term).le way)

/-- The oracle finds the recursor and its major premise as the machine does. -/
theorem oracleReduceRecursor_eq (whnf : Expr → Op Expr) (term : Expr) :
    oracleReduceRecursor env whnf term =
      match resolveRecursor env term with
      | some (inductiveName, rules, major) => do
        let majorWhnf ← whnf major
        Run.lift (finishRecursorReduction env term inductiveName rules majorWhnf)
      | none => pure none := by
  unfold oracleReduceRecursor resolveRecursor
  rcases spine : term.collectApps with ⟨head, args⟩
  cases head with
  | const recursorName levels =>
    dsimp only
    cases env.decl recursorName with
    | none => rfl
    | some decl =>
      cases decl with
      | recursorDecl _ _ _ inductiveName rules =>
        dsimp only
        cases position : args[rules.majorIndex]? with
        | none => rfl
        | some major =>
          obtain ⟨inside, _⟩ := List.getElem?_eq_some_iff.mp position
          simp only [oracleFinishRecursor_eq env spine inside]
          rfl
      | axiomDecl | defDecl | theoremDecl | inductiveDecl | constructorDecl => rfl
  | sort _ | bvar _ | app _ _ | lam _ _ _ | pi _ _ _ => rfl

/-- The value of the function of an application, which is no abstraction, is handed on. -/
theorem oracleApplyOther_realises {loop : Expr → Op Expr} {argument value : Expr}
    (closed : ∀ fuel left, pre fuel → left ≤ fuel → pre left)
    (ih : ∀ term, Realises env kind pre (loop term) (WhnfSpends env ctx kind term))
    (move : ∀ below, resumeMove env value (.apply argument :: below) =
      match resolveRecursor env (.app value argument) with
      | some (inductiveName, rules, major) =>
        .next ⟨.reduce major, .recursorMajor (.app value argument) inductiveName rules :: below⟩
      | none => .next ⟨.complete (.app value argument), below⟩) :
    Realises env kind pre
      (do
        match ← oracleReduceRecursor env loop (.app value argument) with
        | some reduced => loop reduced
        | none => pure (.app value argument))
      ((reductionMachine env ctx).Finishes (.resourceLimit kind)
        ⟨.resume value, [.apply argument]⟩) := by
  rw [oracleReduceRecursor_eq]
  cases resolved : resolveRecursor env (.app value argument) with
  | none =>
    refine realises_value fun fuel _ => finishes_resume ?_ (finishes_complete _ fuel)
    rw [move, resolved]
  | some found =>
    obtain ⟨inductiveName, rules, major⟩ := found
    have next : resumeMove env value [.apply argument] =
        .next ⟨.reduce major, [.recursorMajor (.app value argument) inductiveName rules]⟩ := by
      rw [move, resolved]
    rw [bind_assoc]
    refine (realises_under closed (ih major) fun majorWhnf => ?_).mono (fun _ ok => ok)
      fun _ _ _ _ rest => finishes_resume next rest
    refine realises_lift_bind ?_ ?_
    · intro e fuel failed _
      exact finishes_resume_error (nextOrFail_eq_fail.mpr failed)
    · intro found finished
      cases found with
      | some reduced =>
        refine (ih reduced).mono (fun _ ok => ok) fun _ _ _ _ rest => ?_
        exact finishes_resume (nextOrFail_eq_next.mpr ⟨_, finished, rfl⟩) rest
      | none =>
        refine realises_value fun fuel _ => ?_
        exact finishes_resume (nextOrFail_eq_next.mpr ⟨_, finished, rfl⟩) (finishes_complete _ fuel)

/-- The recursive definition is weak head reduction, with its cost, when the fuel does not pay
    for more calls than it may make inside each other. -/
theorem oracleLoop_realises (depth : Nat) (term : Expr) :
    Realises env kind (fun fuel => fuel < depth) (oracleLoop env ctx kind depth term)
      (WhnfSpends env ctx kind term) := by
  induction depth generalizing term with
  | zero =>
    intro s _ none
    exact absurd none (Nat.not_lt_zero _)
  | succ depth ih =>
    let pre : Nat → Prop := fun middle => middle + 1 < depth + 1
    have closed : ∀ fuel left, pre fuel → left ≤ fuel → pre left := by
      intro fuel left below le
      exact Nat.lt_of_le_of_lt (Nat.succ_le_succ le) below
    have call : ∀ term, Realises env kind pre (oracleLoop env ctx kind depth term)
        (WhnfSpends env ctx kind term) :=
      fun term => (ih term).mono (fun _ below => Nat.lt_of_succ_lt_succ below) fun _ _ _ _ way => way
    refine realises_spend ?_ fun _ => .exhausted rfl
    cases term with
    | bvar index =>
      refine realises_lift_bind ?_ ?_
      · intro e fuel unbound _
        have move : (reductionMachine env ctx).move ⟨.reduce (.bvar index), []⟩ = .fail e :=
          nextOrFail_eq_fail.mpr unbound
        rw [Nat.add_comm]
        exact .fail move
      · intro u bound
        refine realises_value fun fuel _ => finishes_reduce ?_ (finishes_complete _ fuel)
        exact nextOrFail_eq_next.mpr ⟨u, bound, rfl⟩
    | const name levels =>
      dsimp only
      split
      next value unfolds =>
        refine (call value).mono (fun _ ok => ok) fun _ _ _ _ rest => finishes_reduce ?_ rest
        simp only [reduceMove, unfolds]
      next stuck =>
        refine realises_value fun fuel _ => finishes_reduce ?_ (finishes_complete _ fuel)
        simp only [reduceMove, stuck]
    | app fn argument =>
      refine (realises_under closed (call fn) fun value => ?_).mono (fun _ ok => ok)
        fun _ _ _ _ rest => finishes_reduce rfl rest
      cases value with
      | lam binder ty body =>
        refine realises_lift_bind ?_ ?_
        · intro e fuel failed _
          exact finishes_resume_error (nextOrFail_eq_fail.mpr failed)
        · intro current instantiated
          refine (call current).mono (fun _ ok => ok) fun _ _ _ _ rest => ?_
          exact finishes_resume (nextOrFail_eq_next.mpr ⟨_, instantiated, rfl⟩) rest
      | sort _ | bvar _ | const _ _ | app _ _ | pi _ _ _ =>
        exact oracleApplyOther_realises closed call fun _ => rfl
    | sort _ | lam _ _ _ | pi _ _ _ =>
      exact realises_value fun fuel _ => finishes_reduce rfl (finishes_complete _ fuel)

theorem whnfRecursiveOracle_realises (term : Expr) :
    Realises env kind (fun _ => True) (whnfRecursiveOracle env ctx kind term)
      (WhnfSpends env ctx kind term) := by
  refine realises_get fun session => ?_
  refine (oracleLoop_realises (session.fuel kind + 1) term).mono ?_ fun _ _ _ _ way => way
  rintro fuel ⟨_, rfl⟩
  exact Nat.lt_succ_self _

end Realised

/-- The explicit-stack machine without a memo refines the recursive definition: it returns the
    same value or error and leaves the same fuel, from every supply. -/
theorem whnfMachine_refines_oracle (env : Env) (layout : Layout) (ctx : Ctx)
    (delta : List String) (kind : ResourceLimitKind) (origin : MemoExprOrigin) (term : Expr)
    (whnfFuel conversionFuel : Nat) :
    let start : Session := ⟨none, whnfFuel, conversionFuel⟩
    let machine := whnfMachine env layout ctx delta kind origin term start
    let oracle := whnfRecursiveOracle env ctx kind term start
    machine.1 = oracle.1 ∧ SameFuel machine.2 oracle.2 := by
  have uncached := faithful_none env whnfFuel conversionFuel
  have mirrors : Mirrors env (whnfMachine env layout ctx delta kind origin term)
      (whnfRecursiveOracle env ctx kind term) :=
    mirrors_of_realises (regular_whnfSpends kind term) (whnfMachine_realises origin term)
      (whnfRecursiveOracle_realises term)
  obtain ⟨result, fuel, _⟩ := mirrors _ _ (SameFuel.refl _) uncached uncached
  exact ⟨result, fuel⟩

end NpaCore.Kernel
