import NpaCore.Kernel.Evaluation
import NpaCore.Kernel.Typing

/-!
# Soundness of weak head reduction

Evaluation only makes steps of the declarative conversion, under two conditions.
The variables of the terms are in the range where the substitution of the source is
substitution, and no recursive call of a recursor carries universe parameters of the
declaration in its index arguments: those are not replaced by the levels of the
recursor.

## Main result

`Evaluates.sound`: a term evaluates to a convertible term in range.
-/

namespace NpaCore.Kernel

open NpaCore.Expr NpaCore.Level

/-! ### Terms without universe parameters -/

variable {names : List String} {levels : List Level}

theorem substLevelChanged_of_params {level : Level}
    (h : level.params = []) : substLevelChanged names levels level = none := by
  induction level with
  | zero => rfl
  | succ inner ih => simp [substLevelChanged, ih (by simpa [Level.params] using h)]
  | max lhs rhs ihl ihr =>
    obtain ⟨hl, hr⟩ := List.append_eq_nil_iff.mp h
    simp [substLevelChanged, ihl hl, ihr hr]
  | imax lhs rhs ihl ihr =>
    obtain ⟨hl, hr⟩ := List.append_eq_nil_iff.mp h
    simp [substLevelChanged, ihl hl, ihr hr]
  | param name => cases h

theorem substLevelsExpr_of_levelParams {e : Expr}
    (h : e.levelParams = []) : e.substLevelsExpr names levels = e := by
  have level : ∀ l : Level, l.params = [] → l.substLevel names levels = l := by
    intro l hl
    simp [substLevel, substLevelChanged_of_params hl]
  induction e with
  | sort l => simp [substLevelsExpr, level l h]
  | bvar _ => rfl
  | const name us =>
    have each : ∀ l ∈ us, l.substLevel names levels = l := by
      intro l hl
      exact level l (List.flatMap_eq_nil_iff.mp h l hl)
    simp only [substLevelsExpr, List.map_congr_left each, List.map_id']
  | app fn arg ihFn ihArg =>
    obtain ⟨hfn, harg⟩ := List.append_eq_nil_iff.mp h
    simp [substLevelsExpr, ihFn hfn, ihArg harg]
  | lam _ ty body ihTy ihBody | pi _ ty body ihTy ihBody =>
    obtain ⟨hty, hbody⟩ := List.append_eq_nil_iff.mp h
    simp [substLevelsExpr, ihTy hty, ihBody hbody]

/-! ### Recursors that lose no level -/

/-- In the constructors of `data`, the index arguments of the direct occurrences of `family`
    have no universe parameters. -/
def IndexLevelFree (family data : InductiveDecl) : Prop :=
  ∀ constructor ∈ data.constructors, ∀ domain index,
    (domain, index) ∈ constructor.ty.peelPiDomains.1.zipIdx → ∀ indices,
      directRecursiveIndexArgs family domain index = .ok indices →
        ∀ arg ∈ indices, arg.levelParams = []

/-- What reduction of the recursors of an inductive relies on. -/
structure RecursorSafe (env : Env) (inductiveName : String) : Prop where
  present : ∀ group, env.mutualGroup inductiveName = some group →
    ∀ family ∈ group.inductives, ∃ data, env.inductiveData family = .ok data
  levelFree : ∀ data family, env.inductiveData inductiveName = .ok data →
    FieldFamily env inductiveName family → IndexLevelFree family data

/-- Every recursor of the environment belongs to a safe inductive. -/
def RecursorsSafe (env : Env) : Prop :=
  ∀ name declName universeParams ty inductiveName rules,
    env.decl name = some (.recursorDecl declName universeParams ty inductiveName rules) →
      RecursorSafe env inductiveName

/-! ### Environments in range -/

/-- What reduction copies out of a declaration, and its type, are in range. -/
def Decl.InRange : Decl → Prop
  | .defDecl _ _ _ ty value _ => ty.InRange ∧ value.InRange
  | .inductiveDecl _ _ ty data =>
    ty.InRange ∧ ∀ constructor ∈ data.constructors, constructor.ty.InRange
  | decl => decl.ty.InRange

def Env.InRange (env : Env) : Prop := ∀ name decl, env.decl name = some decl → decl.InRange

theorem Decl.InRange.type {decl : Decl} (h : decl.InRange) : decl.ty.InRange := by
  cases decl with
  | defDecl | inductiveDecl => exact h.1
  | axiomDecl | theoremDecl | constructorDecl | recursorDecl => exact h

variable {env : Env} {data : InductiveDecl}

theorem Env.InRange.constructor (range : env.InRange) {name : String}
    (h : env.inductiveData name = .ok data) {constructor : ConstructorDecl}
    (mem : constructor ∈ data.constructors) : constructor.ty.InRange := by
  simp only [Env.inductiveData] at h
  split at h
  next hdecl =>
    cases h
    exact (range name _ hdecl).2 constructor mem
  next => cases h

/-! ### Iota -/

theorem instantiateConstructorArgsAt_eq {args : List Expr} {e result : Expr} {depth : Nat}
    (rangeArgs : ∀ arg ∈ args, arg.InRange) (range : e.InRange)
    (h : instantiateConstructorArgsAt args e depth = .ok result) :
    result = e.instTelescope args depth ∧ result.InRange := by
  induction e generalizing depth result with
  | sort _ | const _ _ =>
    cases h
    exact ⟨rfl, trivial⟩
  | bvar index =>
    simp only [instantiateConstructorArgsAt] at h
    simp only [instTelescope]
    split at h
    next below =>
      cases h
      rw [if_pos below]
      exact ⟨rfl, range⟩
    next above =>
      simp only [Result.bind_eq_ok, Result.okOr_eq_ok] at h
      obtain ⟨arg, found, shifted⟩ := h
      split at found
      next inside =>
        have small : depth < 0x80000000 := Nat.lt_of_le_of_lt (Nat.le_of_not_lt above) range
        rw [asI32_of_lt small] at shifted
        rw [if_neg above, if_pos inside, found]
        exact shift_eq (rangeArgs arg (List.mem_of_getElem? found)) shifted
      next => cases found
  | app fn arg ihFn ihArg =>
    simp only [instantiateConstructorArgsAt, Result.bind_eq_ok, Except.ok.injEq] at h
    obtain ⟨fn', hfn, arg', harg, rfl⟩ := h
    obtain ⟨rfl, rangeFn⟩ := ihFn range.1 hfn
    obtain ⟨rfl, rangeArg⟩ := ihArg range.2 harg
    exact ⟨rfl, rangeFn, rangeArg⟩
  | lam binder ty body ihTy ihBody | pi binder ty body ihTy ihBody =>
    simp only [instantiateConstructorArgsAt, Result.bind_eq_ok, Except.ok.injEq] at h
    obtain ⟨ty', hty, body', hbody, rfl⟩ := h
    obtain ⟨rfl, rangeTy⟩ := ihTy range.1 hty
    obtain ⟨rfl, rangeBody⟩ := ihBody range.2 hbody
    exact ⟨rfl, rangeTy, rangeBody⟩

variable {ctxLen : Nat}

theorem directMutualRecursiveIndexArgs_ok {domain : Expr} {family : String} {indices : List Expr}
    (h : directMutualRecursiveIndexArgs env domain ctxLen names = .ok (family, indices)) :
    family ∈ names ∧ ∃ data, env.inductiveData family = .ok data ∧
      directRecursiveIndexArgs data domain ctxLen = .ok indices := by
  induction names with
  | nil => cases h
  | cons first rest ih =>
    simp only [directMutualRecursiveIndexArgs, Result.bind_eq_ok] at h
    obtain ⟨data, hdata, h⟩ := h
    split at h
    next found hfound =>
      cases h
      exact ⟨List.mem_cons_self, data, hdata, hfound⟩
    next =>
      obtain ⟨mem, spec⟩ := ih h
      exact ⟨List.mem_cons_of_mem _ mem, spec⟩

theorem directMutualRecursiveIndexArgs_error {domain : Expr} {error : Error}
    (present : ∀ family ∈ names, ∃ data, env.inductiveData family = .ok data)
    (h : directMutualRecursiveIndexArgs env domain ctxLen names = .error error) :
    ∀ family ∈ names, ∀ data, env.inductiveData family = .ok data →
      ∀ indices, directRecursiveIndexArgs data domain ctxLen ≠ .ok indices := by
  induction names with
  | nil => simp
  | cons first rest ih =>
    obtain ⟨data, hdata⟩ := present first (by simp)
    simp only [directMutualRecursiveIndexArgs, hdata, bind, Except.bind] at h
    split at h
    next => cases h
    next notHere hnot =>
      intro family hfamily other hother indices
      rcases List.mem_cons.mp hfamily with rfl | hfamily
      · rw [hdata] at hother
        cases hother
        rw [hnot]
        exact fun e => nomatch e
      · exact ih (fun f hf => present f (List.mem_cons_of_mem _ hf)) h family hfamily other hother
          indices

/-- The spine of the specification for the spine of the code. -/
def RecursorSpine.toIota (spine : RecursorSpine) (inductiveName : String)
    (universeParams : List String) : IotaSpine :=
  ⟨inductiveName, spine.recursorName, universeParams, spine.levels, spine.prefixArgs,
    spine.constructorArgs⟩

theorem directRecursiveIndexArgs_inRange {domain : Expr}
    {indices : List Expr} (range : domain.InRange)
    (h : directRecursiveIndexArgs data domain ctxLen = .ok indices) :
    ∀ index ∈ indices, index.InRange := by
  obtain ⟨levels, args, spine, _, rfl, _⟩ := directRecursiveIndexArgs_spec h
  intro index mem
  have inArgs := range.collectApps.2
  rw [spine] at inArgs
  exact inArgs index (List.mem_of_mem_drop mem)

/-- The index arguments of a call of the code are those of the specification, since there is
    no level to replace in them. -/
theorem collect_instances {spine : IotaSpine} {indices instances : List Expr}
    (free : ∀ index ∈ indices, index.levelParams = []) (range : ∀ index ∈ indices, index.InRange)
    (rangeArgs : ∀ arg ∈ spine.constructorArgs, arg.InRange) (h : Result.collect indices
      (fun arg => instantiateConstructorArgs arg (spine.constructorArgs.take ctxLen)) =
        .ok instances) :
    instances = spine.instances ctxLen indices ∧ ∀ e ∈ instances, e.InRange := by
  have rangeTaken : ∀ arg ∈ spine.constructorArgs.take ctxLen, arg.InRange :=
    fun arg mem => rangeArgs arg (List.mem_of_mem_take mem)
  rw [Result.collect_eq_ok] at h
  induction h with
  | nil => simp [IotaSpine.instances]
  | @cons index inst indices instances head _ ih =>
    obtain ⟨same, rangeRest⟩ := ih (fun e mem => free e (List.mem_cons_of_mem _ mem))
      fun e mem => range e (List.mem_cons_of_mem _ mem)
    obtain ⟨rfl, rangeHere⟩ := instantiateConstructorArgsAt_eq rangeTaken (range index (by simp)) head
    have closed : index.substLevelsExpr spine.universeParams spine.levels = index :=
      substLevelsExpr_of_levelParams (free index (by simp))
    refine ⟨?_, ?_⟩
    · rw [IotaSpine.instances, List.map_cons, closed, same]
      rfl
    · intro e mem
      rcases List.mem_cons.mp mem with rfl | mem
      · exact rangeHere
      · exact rangeRest e mem

/-- The terms of a reduction that its recursive calls share are in range. -/
structure RecursorSpine.InRange (spine : RecursorSpine) : Prop where
  prefixArgs : ∀ arg ∈ spine.prefixArgs, arg.InRange
  constructorArgs : ∀ arg ∈ spine.constructorArgs, arg.InRange

variable {spine : RecursorSpine}

/-- A recursive call, of the recursor of the family that the field belongs to. -/
theorem call_sound {inductiveName recursorName : String}
    {universeParams : List String} {family : InductiveDecl} {domain field : Expr}
    {indices instances : List Expr} (rangeSpine : spine.InRange)
    (rangeField : field.InRange) (free : ∀ index ∈ indices, index.levelParams = [])
    (range : ∀ index ∈ indices, index.InRange) (hinstances : Result.collect indices
      (fun arg => instantiateConstructorArgs arg (spine.constructorArgs.take ctxLen)) =
        .ok instances)
    (recursor : FamilyRecursor env inductiveName spine.recursorName family recursorName)
    (occurrence : directRecursiveIndexArgs family domain ctxLen = .ok indices) :
    IotaField env (spine.toIota inductiveName universeParams) domain field ctxLen
      (field :: (some (spine.call recursorName instances field)).toList) ∧
      ∀ e ∈ some (spine.call recursorName instances field), e.InRange := by
  let iotaSpine := spine.toIota inductiveName universeParams
  have collected : instances = iotaSpine.instances ctxLen indices ∧ ∀ e ∈ instances, e.InRange :=
    collect_instances free range rangeSpine.constructorArgs hinstances
  refine ⟨?_, ?_⟩
  · rw [collected.1]
    exact .recursive recursor occurrence
  · rintro _ ⟨⟩
    rw [RecursorSpine.call, inRange_apps]
    refine ⟨trivial, ?_⟩
    intro arg mem
    simp only [List.mem_append, List.mem_singleton] at mem
    rcases mem with (mem | mem) | rfl
    · exact rangeSpine.prefixArgs arg mem
    · exact collected.2 arg mem
    · exact rangeField

variable {inductiveName : String}

theorem recursiveCall_sound (universeParams : List String) (safe : RecursorSafe env inductiveName)
    (hdata : env.inductiveData inductiveName = .ok data) {constructor : ConstructorDecl}
    (hconstructor : constructor ∈ data.constructors) (rangeType : constructor.ty.InRange)
    {domain field : Expr} (hdomain : (domain, ctxLen) ∈ constructor.ty.peelPiDomains.1.zipIdx)
    (rangeSpine : spine.InRange) (rangeField : field.InRange) {call : Option Expr}
    (h : recursiveCall env (env.mutualGroup inductiveName) data spine domain field ctxLen =
      .ok call) :
    IotaField env (spine.toIota inductiveName universeParams) domain field ctxLen
      (field :: call.toList) ∧ ∀ e ∈ call, e.InRange := by
  have free : ∀ family, FieldFamily env inductiveName family → ∀ indices,
      directRecursiveIndexArgs family domain ctxLen = .ok indices →
        ∀ arg ∈ indices, arg.levelParams = [] :=
    fun family hfamily => safe.levelFree data family hdata hfamily constructor hconstructor domain
      ctxLen hdomain
  have rangeDomain : domain.InRange := rangeType.domains domain (List.fst_mem_of_mem_zipIdx hdomain)
  cases hgroup : env.mutualGroup inductiveName with
  | none =>
    -- outside a block, a field can only be of the family itself
    simp only [recursiveCall, hgroup] at h
    split at h
    next notDirect hnot =>
      cases h
      refine ⟨.plain fun other hother indices => ?_, by simp⟩
      simp only [RecursorSpine.toIota, FieldFamily, hgroup, hdata, Except.ok.injEq] at hother
      subst hother
      rw [hnot]
      exact fun e => nomatch e
    next indices hdirect =>
      simp only [Result.bind_eq_ok, Except.ok.injEq] at h
      obtain ⟨instances, hinstances, rfl⟩ := h
      have family : FieldFamily env inductiveName data := by simp [FieldFamily, hgroup, hdata]
      have recursor : FamilyRecursor env inductiveName spine.recursorName data
          spine.recursorName := by
        simp [FamilyRecursor, hgroup, hdata]
      exact call_sound rangeSpine rangeField (free data family indices hdirect)
        (directRecursiveIndexArgs_inRange rangeDomain hdirect) hinstances recursor hdirect
  | some group =>
    -- in a block it can be of any family, whose own recursor is called
    simp only [recursiveCall, hgroup] at h
    split at h
    next notDirect hnot =>
      cases h
      refine ⟨.plain fun other hother => ?_, by simp⟩
      simp only [RecursorSpine.toIota, FieldFamily, hgroup] at hother
      obtain ⟨family, hfamily, hdataFamily⟩ := hother
      exact directMutualRecursiveIndexArgs_error (safe.present group hgroup) hnot family hfamily
        other hdataFamily
    next familyName indices hdirect =>
      simp only [Result.bind_eq_ok, Result.okOr_eq_ok, Result.ensure_eq_ok, Except.ok.injEq] at h
      obtain ⟨recursorName, hrecursor, _, _, instances, hinstances, _, _, rfl⟩ := h
      obtain ⟨hmem, familyData, hfamilyData, found⟩ := directMutualRecursiveIndexArgs_ok hdirect
      have family : FieldFamily env inductiveName familyData := by
        simp only [FieldFamily, hgroup]
        exact ⟨familyName, hmem, hfamilyData⟩
      have recursor : FamilyRecursor env inductiveName spine.recursorName familyData
          recursorName := by
        simp only [FamilyRecursor, hgroup]
        exact ⟨familyName, hmem, hfamilyData, hrecursor⟩
      exact call_sound rangeSpine rangeField (free familyData family indices found)
        (directRecursiveIndexArgs_inRange rangeDomain found) hinstances recursor found

theorem applyField_eq {group : Option MutualGroupInfo}
    {reduced field domain next : Expr} {index : Nat}
    (h : applyField env group data spine reduced ((field, domain), index) = .ok next) :
    ∃ call, recursiveCall env group data spine domain field (data.params.length + index) =
      .ok call ∧ next = apps reduced (field :: call.toList) := by
  simp only [applyField, Result.bind_eq_ok] at h
  obtain ⟨call, hcall, h⟩ := h
  refine ⟨call, hcall, ?_⟩
  cases call with
  | none =>
    cases h
    rfl
  | some call =>
    cases h
    rfl

theorem applyMinor_sound (universeParams : List String) (safe : RecursorSafe env inductiveName)
    (hdata : env.inductiveData inductiveName = .ok data) {constructor : ConstructorDecl}
    (hconstructor : constructor ∈ data.constructors) (rangeType : constructor.ty.InRange)
    (rangeSpine : spine.InRange) {fieldArgs fieldDomains : List Expr}
    (rangeFields : ∀ field ∈ fieldArgs, field.InRange) {start : Nat}
    (hdomains : ∀ i domain, fieldDomains[i]? = some domain →
      (domain, data.params.length + start + i) ∈ constructor.ty.peelPiDomains.1.zipIdx)
    {minor reduced : Expr} (h : Result.foldEach ((fieldArgs.zip fieldDomains).zipIdx start) minor
      (applyField env (env.mutualGroup inductiveName) data spine) = .ok reduced) :
    ∃ minorArgs, IotaFields env (spine.toIota inductiveName universeParams)
      (data.params.length + start) (fieldArgs.zip fieldDomains) minorArgs ∧
      (∀ e ∈ minorArgs, e.InRange) ∧ reduced = apps minor minorArgs := by
  induction fieldArgs generalizing fieldDomains start minor with
  | nil =>
    cases h
    exact ⟨[], .nil, by simp, rfl⟩
  | cons field fieldArgs ih =>
    cases fieldDomains with
    | nil =>
      cases h
      exact ⟨[], .nil, by simp, rfl⟩
    | cons domain fieldDomains =>
      simp only [List.zip_cons_cons, List.zipIdx_cons, Result.foldEach, Result.bind_eq_ok] at h
      obtain ⟨next, hfield, hrest⟩ := h
      obtain ⟨call, hcall, rfl⟩ := applyField_eq hfield
      have here : (domain, data.params.length + start) ∈ constructor.ty.peelPiDomains.1.zipIdx :=
        hdomains 0 domain rfl
      have later : ∀ i d, fieldDomains[i]? = some d →
          (d, data.params.length + (start + 1) + i) ∈ constructor.ty.peelPiDomains.1.zipIdx := by
        intro i d hd
        have shifted := hdomains (i + 1) d (by simpa using hd)
        have same : data.params.length + start + (i + 1) = data.params.length + (start + 1) + i := by
          omega
        rwa [same] at shifted
      have rangeField : field.InRange := rangeFields field (by simp)
      obtain ⟨fields, rangeCall⟩ := recursiveCall_sound universeParams safe hdata hconstructor
        rangeType here rangeSpine rangeField hcall
      obtain ⟨others, hothers, rangeOthers, rfl⟩ :=
        ih (fun e mem => rangeFields e (List.mem_cons_of_mem _ mem)) later hrest
      refine ⟨(field :: call.toList) ++ others, .cons fields hothers, ?_, (apps_append _ _ _).symm⟩
      intro e mem
      simp only [List.cons_append, List.mem_cons, List.mem_append, Option.mem_toList] at mem
      rcases mem with rfl | mem | mem
      · exact rangeField
      · exact rangeCall e mem
      · exact rangeOthers e mem

variable {rules : RecursorRules}

theorem resolveRecursor_spec {application major : Expr}
    (h : resolveRecursor env application = some (inductiveName, rules, major)) :
    ∃ name levels args declName universeParams ty,
      application.collectApps = (.const name levels, args) ∧
      env.decl name = some (.recursorDecl declName universeParams ty inductiveName rules) ∧
      args[rules.majorIndex]? = some major := by
  simp only [resolveRecursor] at h
  split at h
  next name levels args spine =>
    split at h
    next declName universeParams ty _ _ hdecl =>
      obtain ⟨_, hmajor, same⟩ := Option.map_eq_some_iff.mp h
      cases same
      exact ⟨name, levels, args, declName, universeParams, ty, spine, hdecl, hmajor⟩
    next => cases h
  next => cases h

/-- What a reduction of the code has found: the constructor at the head of the major
    premise, the minor premise for it, and enough arguments for its fields. -/
structure FoundMinor (env : Env) (inductiveName : String) (rules : RecursorRules)
    (args : List Expr) (majorWhnf reduced : Expr) (recursorName : String)
    (levels : List Level) : Prop where
  exists_minor : ∃ constructorLevels constructorArgs data constructor constructorIndex offset minor
      body,
    majorWhnf.collectApps = (.const (ConstructorDecl.name constructor) constructorLevels,
      constructorArgs) ∧
    env.inductiveData inductiveName = .ok data ∧
    data.constructors[constructorIndex]? = some constructor ∧
    blockConstructorOffset env (env.mutualGroup inductiveName) inductiveName = .ok offset ∧
    args[rules.minorStart + offset + constructorIndex]? = some minor ∧
    data.params.length ≤ constructorArgs.length ∧
    (constructor.ty.peelPiDomains.1.drop data.params.length).length ≤
      (constructorArgs.drop data.params.length).length ∧
    applyMinor env (env.mutualGroup inductiveName) data
      ⟨recursorName, levels, args.take (rules.majorIndex - data.indices.length), constructorArgs⟩
      minor (constructorArgs.drop data.params.length)
      (constructor.ty.peelPiDomains.1.drop data.params.length) = .ok body ∧
    reduced = apps body (args.drop (rules.majorIndex + 1))

theorem finishRecursorReduction_found {application majorWhnf reduced : Expr}
    {inductiveName recursorName : String}
    {args : List Expr} (spine : application.collectApps = (.const recursorName levels, args))
    (h : finishRecursorReduction env application inductiveName rules majorWhnf =
      .ok (some reduced)) :
    FoundMinor env inductiveName rules args majorWhnf reduced recursorName levels := by
  simp only [finishRecursorReduction, spine] at h
  split at h
  next name levels' args' constructorName constructorLevels constructorArgs heq hmajor =>
    cases heq
    split at h
    next => cases h
    next =>
      simp only [Result.bind_eq_ok] at h
      obtain ⟨data, hdata, h⟩ := h
      split at h
      next => cases h
      next constructorIndex hindex =>
        obtain ⟨hlt, hname, _⟩ := List.findIdx?_eq_some_iff_getElem.mp hindex
        simp only [Result.bind_eq_ok] at h
        obtain ⟨offset, hoffset, h⟩ := h
        split at h
        next minor constructor hminor hconstructor =>
          have owner : constructor.name = constructorName := by
            rw [List.getElem?_eq_getElem hlt] at hconstructor
            cases hconstructor
            simpa using hname
          split at h
          next => cases h
          next enough =>
            split at h
            next => cases h
            next saturated =>
              simp only [Result.bind_eq_ok, Except.ok.injEq, Option.some.injEq] at h
              obtain ⟨body, hbody, rfl⟩ := h
              exact ⟨constructorLevels, constructorArgs, data, constructor, constructorIndex,
                offset, minor, body, by rw [hmajor, owner], hdata, hconstructor, hoffset, hminor,
                by omega, by omega, hbody, rfl⟩
        next => cases h
  next => cases h

theorem finishRecursorReduction_sound {application major majorWhnf reduced : Expr}
    (safe : RecursorsSafe env)
    (range : env.InRange) (rangeApplication : application.InRange) (rangeMajor : majorWhnf.InRange)
    (resolved : resolveRecursor env application = some (inductiveName, rules, major))
    (converts : Conv env major majorWhnf)
    (h : finishRecursorReduction env application inductiveName rules majorWhnf =
      .ok (some reduced)) : Conv env application reduced ∧ reduced.InRange := by
  obtain ⟨name, levels, args, declName, universeParams, ty, spine, hdecl, hmajor⟩ :=
    resolveRecursor_spec resolved
  obtain ⟨constructorLevels, constructorArgs, data, constructor, constructorIndex, offset, minor,
    body, hconstructorSpine, hdata, hconstructor, hoffset, hminor, hparams, hsaturated, hbody,
    rfl⟩ := (finishRecursorReduction_found spine h).exists_minor
  have whole : application = apps (.const name levels) args := by
    rw [← apps_collectApps application, spine]
  have majorForm : majorWhnf = apps (.const constructor.name constructorLevels) constructorArgs := by
    rw [← apps_collectApps majorWhnf, hconstructorSpine]
  have domains : ∀ i domain,
      (constructor.ty.peelPiDomains.1.drop data.params.length)[i]? = some domain →
      (domain, data.params.length + 0 + i) ∈ constructor.ty.peelPiDomains.1.zipIdx := by
    intro i domain hdomain
    rw [List.getElem?_drop] at hdomain
    exact List.mk_mem_zipIdx_iff_getElem?.mpr (by simpa using hdomain)
  have rangeArgs : ∀ arg ∈ args, arg.InRange := by
    have parts := rangeApplication.collectApps.2
    rwa [spine] at parts
  have rangeConstructorArgs : ∀ arg ∈ constructorArgs, arg.InRange := by
    have parts := rangeMajor.collectApps.2
    rwa [hconstructorSpine] at parts
  have owned := List.mem_of_getElem? hconstructor
  obtain ⟨minorArgs, hfields, rangeMinorArgs, rfl⟩ := applyMinor_sound
    universeParams (safe _ _ _ _ _ _ hdecl) hdata owned (range.constructor hdata owned)
    ⟨fun arg mem => rangeArgs arg (List.mem_of_mem_take mem), rangeConstructorArgs⟩
    (fun arg mem => rangeConstructorArgs arg (List.mem_of_mem_drop mem)) domains hbody
  have majorLt : rules.majorIndex < args.length := (List.getElem?_eq_some_iff.mp hmajor).1
  -- the step starts from the spine with the normal form in place of the major premise
  let args' := args.set rules.majorIndex majorWhnf
  have toNormal : Conv env application (apps (.const name levels) args') := by
    rw [whole]
    exact Conv.apps_set _ hmajor converts
  obtain ⟨minor', hminor', hconv⟩ : ∃ minor',
      args'[rules.minorStart + offset + constructorIndex]? = some minor' ∧
      Conv env minor' minor := by
    by_cases same : rules.majorIndex = rules.minorStart + offset + constructorIndex
    · refine ⟨majorWhnf, ?_, ?_⟩
      · rw [← same]
        exact List.getElem?_set_self majorLt
      · rw [← same, hmajor] at hminor
        cases hminor
        exact .symm converts
    · exact ⟨minor, by rw [List.getElem?_set_ne same, hminor], .refl minor⟩
  have step : Iota env (apps (.const name levels) args')
      (apps (apps minor' minorArgs) (args'.drop (rules.majorIndex + 1))) := by
    have majorAt : args'[rules.majorIndex]? =
        some (apps (.const constructor.name constructorLevels) constructorArgs) := by
      rw [← majorForm]
      exact List.getElem?_set_self majorLt
    refine .intro hdecl hdata hconstructor majorAt hoffset hminor' hparams hsaturated ?_
    rw [List.take_set_of_le (Nat.sub_le _ _)]
    exact hfields
  rw [List.drop_set_of_lt (Nat.lt_succ_self _)] at step
  refine ⟨.trans toNormal (.trans (.iota step) ?_), ?_⟩
  · exact Conv.apps_congr (Conv.apps_congr hconv (Conv.forall₂_refl _)) (Conv.forall₂_refl _)
  · rw [inRange_apps, inRange_apps]
    exact ⟨⟨rangeArgs minor (List.mem_of_getElem? hminor), rangeMinorArgs⟩,
      fun arg mem => rangeArgs arg (List.mem_of_mem_drop mem)⟩

/-! ### Evaluation -/

theorem unfoldDefinition_sound (range : env.InRange) {name : String}
    {value : Expr} (h : unfoldDefinition env name levels = some value) :
    Conv env (.const name levels) value ∧ value.InRange := by
  simp only [unfoldDefinition] at h
  split at h
  next hdecl =>
    cases h
    exact ⟨.delta hdecl, inRange_substLevelsExpr.mpr (range name _ hdecl).2⟩
  next => cases h

theorem resolveRecursor_inRange {application major : Expr} (range : application.InRange)
    (h : resolveRecursor env application = some (inductiveName, rules, major)) : major.InRange := by
  obtain ⟨_, _, args, _, _, _, spine, _, hmajor⟩ := resolveRecursor_spec h
  have parts := range.collectApps.2
  rw [spine] at parts
  exact parts major (List.mem_of_getElem? hmajor)

/-- Weak head reduction is conversion: one rule of the relation for each rule of evaluation. -/
theorem Evaluates.sound {ctx : Ctx} (safe : RecursorsSafe env) (range : env.InRange)
    {term value : Expr} {cost : Nat} (h : Evaluates env ctx term cost value)
    (rangeTerm : term.InRange) : Conv env term value ∧ value.InRange := by
  induction h with
  | sort | lam | pi | bvar | const => exact ⟨.refl _, rangeTerm⟩
  | delta unfolds _ ih =>
    obtain ⟨step, rangeValue⟩ := unfoldDefinition_sound range unfolds
    obtain ⟨rest, rangeResult⟩ := ih rangeValue
    exact ⟨.trans step rest, rangeResult⟩
  | beta _ instantiated _ ihFn ih =>
    obtain ⟨function, rangeLam⟩ := ihFn rangeTerm.1
    obtain ⟨rfl, rangeCurrent⟩ := instantiate_eq rangeLam.2 rangeTerm.2 instantiated
    obtain ⟨rest, rangeResult⟩ := ih rangeCurrent
    exact ⟨.trans (.app function (.refl _)) (.trans .beta rest), rangeResult⟩
  | neutral _ _ _ ihFn =>
    obtain ⟨function, rangeValue⟩ := ihFn rangeTerm.1
    exact ⟨.app function (.refl _), rangeValue, rangeTerm.2⟩
  | iota _ _ resolved _ finished _ ihFn ihMajor ih =>
    obtain ⟨function, rangeValue⟩ := ihFn rangeTerm.1
    have rangeApplication : (NpaCore.Expr.app _ _).InRange := ⟨rangeValue, rangeTerm.2⟩
    obtain ⟨premise, rangeMajor⟩ := ihMajor (resolveRecursor_inRange rangeApplication resolved)
    obtain ⟨step, rangeReduced⟩ := finishRecursorReduction_sound safe range rangeApplication
      rangeMajor resolved premise finished
    obtain ⟨rest, rangeResult⟩ := ih rangeReduced
    exact ⟨.trans (.app function (.refl _)) (.trans step rest), rangeResult⟩
  | blocked _ _ _ _ _ ihFn _ =>
    obtain ⟨function, rangeValue⟩ := ihFn rangeTerm.1
    exact ⟨.app function (.refl _), rangeValue, rangeTerm.2⟩

end NpaCore.Kernel
