import NpaCore.Kernel.MemoInvisible
import NpaCore.Kernel.Methods
import NpaCore.Syntax.DisplayNames

/-!
# Display names in reduction

The kernel never reads the display name of a binder. Changing all of them, in an environment
and in a term, commutes with every step of weak head reduction.

## Main result

`finishRecursorReduction_relabel`: the reduction of a recursor.
-/

namespace NpaCore.Kernel

open NpaCore.Expr

/-! ### Renamed declarations -/

section Relabel

variable (f : String → String)

def Binder.relabel (binder : Binder) : Binder := ⟨f binder.name, NpaCore.Expr.relabel f binder.ty⟩

def ConstructorDecl.relabel (constructor : ConstructorDecl) : ConstructorDecl :=
  ⟨constructor.name, NpaCore.Expr.relabel f constructor.ty⟩

def RecursorDecl.relabel (recursor : RecursorDecl) : RecursorDecl :=
  { recursor with ty := NpaCore.Expr.relabel f recursor.ty }

def InductiveDecl.relabel (data : InductiveDecl) : InductiveDecl :=
  { data with
    params := data.params.map (Binder.relabel f)
    indices := data.indices.map (Binder.relabel f)
    constructors := data.constructors.map (ConstructorDecl.relabel f)
    recursor := data.recursor.map (RecursorDecl.relabel f) }

def Decl.relabel : Decl → Decl
  | .axiomDecl name universeParams universeConstraints ty =>
    .axiomDecl name universeParams universeConstraints (NpaCore.Expr.relabel f ty)
  | .defDecl name universeParams universeConstraints ty value reducibility =>
    .defDecl name universeParams universeConstraints (NpaCore.Expr.relabel f ty)
      (NpaCore.Expr.relabel f value) reducibility
  | .theoremDecl name universeParams universeConstraints ty proof =>
    .theoremDecl name universeParams universeConstraints (NpaCore.Expr.relabel f ty)
      (NpaCore.Expr.relabel f proof)
  | .inductiveDecl name universeParams ty data =>
    .inductiveDecl name universeParams (NpaCore.Expr.relabel f ty) (data.relabel f)
  | .constructorDecl name universeParams ty inductiveName =>
    .constructorDecl name universeParams (NpaCore.Expr.relabel f ty) inductiveName
  | .recursorDecl name universeParams ty inductiveName rules =>
    .recursorDecl name universeParams (NpaCore.Expr.relabel f ty) inductiveName rules

def Env.relabel (env : Env) : Env :=
  { env with decls := env.decls.map fun (name, decl) => (name, decl.relabel f) }

def Ctx.relabel (ctx : Ctx) : Ctx := ⟨ctx.locals.map (NpaCore.Expr.relabel f)⟩

@[simp] theorem relabel_universeParams (decl : Decl) :
    (decl.relabel f).universeParams = decl.universeParams := by
  cases decl <;> rfl

@[simp] theorem relabel_ty (decl : Decl) :
    (decl.relabel f).ty = NpaCore.Expr.relabel f decl.ty := by
  cases decl <;> rfl

@[simp] theorem relabel_pushAssumption (ctx : Ctx) (ty : Expr) :
    (ctx.pushAssumption ty).relabel f = (ctx.relabel f).pushAssumption (NpaCore.Expr.relabel f ty) := by
  simp [Ctx.relabel, Ctx.pushAssumption]

@[simp] theorem relabel_length (ctx : Ctx) : (ctx.relabel f).locals.length = ctx.locals.length :=
  List.length_map _

@[simp] theorem relabel_insertDecl (env : Env) (name : String) (decl : Decl) :
    (env.insertDecl name decl).relabel f = (env.relabel f).insertDecl name (decl.relabel f) := rfl

@[simp] theorem relabel_newCtx : Ctx.new.relabel f = Ctx.new := rfl

/-! ### Lookups -/

variable (env : Env)

@[simp] theorem decl_relabel (name : String) :
    (env.relabel f).decl name = (env.decl name).map (Decl.relabel f) := by
  obtain ⟨decls, groups, options⟩ := env
  show (decls.map fun (name, decl) => (name, Decl.relabel f decl)).lookup name =
    (decls.lookup name).map (Decl.relabel f)
  induction decls with
  | nil => rfl
  | cons entry rest ih =>
    obtain ⟨key, decl⟩ := entry
    simp only [List.map_cons, List.lookup_cons, ih]
    cases name == key <;> rfl

@[simp] theorem mutualGroup_relabel (name : String) :
    (env.relabel f).mutualGroup name = env.mutualGroup name := rfl

theorem inductiveData_relabel (name : String) :
    (env.relabel f).inductiveData name = (env.inductiveData name).map (InductiveDecl.relabel f) := by
  rw [Env.inductiveData, Env.inductiveData, decl_relabel]
  cases env.decl name with
  | none => rfl
  | some decl => cases decl <;> rfl

theorem constructorBelongsTo_relabel (constructor inductiveName : String) :
    (env.relabel f).constructorBelongsTo constructor inductiveName =
      env.constructorBelongsTo constructor inductiveName := by
  rw [Env.constructorBelongsTo, Env.constructorBelongsTo, decl_relabel]
  cases env.decl constructor with
  | none => rfl
  | some decl => cases decl <;> rfl

theorem inductiveConstraintContext_relabel (inductiveName : String) :
    (env.relabel f).inductiveConstraintContext inductiveName =
      env.inductiveConstraintContext inductiveName := by
  rw [Env.inductiveConstraintContext, Env.inductiveConstraintContext, mutualGroup_relabel]
  split
  · rfl
  · rw [decl_relabel]
    cases env.decl inductiveName with
    | none => rfl
    | some decl => cases decl <;> rfl

theorem declConstraintContext_relabel (decl : Decl) :
    (env.relabel f).declConstraintContext (decl.relabel f) = env.declConstraintContext decl := by
  cases decl with
  | inductiveDecl name _ _ _ => exact inductiveConstraintContext_relabel f env name
  | constructorDecl _ _ _ name | recursorDecl _ _ _ name _ =>
    exact inductiveConstraintContext_relabel f env name
  | axiomDecl | defDecl | theoremDecl => rfl

theorem ensureFresh_relabel (name : String) :
    (env.relabel f).ensureFresh name = env.ensureFresh name := by
  simp only [Env.ensureFresh, decl_relabel, Option.isNone_map]

theorem unfoldDefinition_relabel (name : String) (levels : List Level) :
    unfoldDefinition (env.relabel f) name levels =
      (unfoldDefinition env name levels).map (NpaCore.Expr.relabel f) := by
  rw [unfoldDefinition, unfoldDefinition, decl_relabel]
  cases env.decl name with
  | none => rfl
  | some decl =>
    cases decl with
    | defDecl _ universeParams _ _ value reducibility =>
      cases reducibility with
      | reducible => exact congrArg some (substLevelsExpr_relabel f universeParams levels value)
      | opaqueDef => rfl
    | axiomDecl | theoremDecl | inductiveDecl | constructorDecl | recursorDecl => rfl

theorem resolveRecursor_relabel (application : Expr) :
    resolveRecursor (env.relabel f) (NpaCore.Expr.relabel f application) =
      (resolveRecursor env application).map fun (inductiveName, rules, major) =>
        (inductiveName, rules, NpaCore.Expr.relabel f major) := by
  rw [resolveRecursor, resolveRecursor, collectApps_relabel]
  obtain ⟨head, args⟩ := application.collectApps
  cases head with
  | const name levels =>
    simp only [relabel_const, decl_relabel]
    cases env.decl name with
    | none => rfl
    | some decl =>
      cases decl with
      | recursorDecl _ _ _ inductiveName rules =>
        simp only [Option.map_some, Decl.relabel, List.getElem?_map, Option.map_map]
        rfl
      | axiomDecl | defDecl | theoremDecl | inductiveDecl | constructorDecl => rfl
  | sort _ | bvar _ | app _ _ | lam _ _ _ | pi _ _ _ => rfl

end Relabel

/-! ### Reduction of a recursor -/

section Recursor

variable (f : String → String) (env : Env)

theorem instantiateConstructorArgsAt_relabel (args : List Expr) (e : Expr) (depth : Nat) :
    instantiateConstructorArgsAt (args.map (NpaCore.Expr.relabel f)) (NpaCore.Expr.relabel f e)
        depth =
      (instantiateConstructorArgsAt args e depth).map (NpaCore.Expr.relabel f) := by
  induction e generalizing depth with
  | sort _ | const _ _ => rfl
  | bvar index =>
    simp only [relabel_bvar, instantiateConstructorArgsAt, List.length_map, List.getElem?_map]
    split
    · rfl
    · have found : (if index - depth < args.length
            then args[args.length - 1 - (index - depth)]?.map (NpaCore.Expr.relabel f) else none) =
          (if index - depth < args.length then args[args.length - 1 - (index - depth)]?
            else none).map (NpaCore.Expr.relabel f) := by
        split <;> rfl
      rw [found, Result.okOr_translate]
      exact Result.bind_translate fun arg => shift_relabel f _ arg _ 0
  | app _ _ ihFn ihArg =>
    simp only [relabel_app, instantiateConstructorArgsAt, ihFn, ihArg]
    exact map_pair f fun _ _ => rfl
  | lam _ _ _ ihTy ihBody | pi _ _ _ ihTy ihBody =>
    simp only [relabel_lam, relabel_pi, instantiateConstructorArgsAt, ihTy, ihBody]
    exact map_pair f fun _ _ => rfl

theorem familyArgs_relabel (data : InductiveDecl) (e : Expr) :
    familyArgs (data.relabel f) (NpaCore.Expr.relabel f e) =
      (familyArgs data e).map (List.map (NpaCore.Expr.relabel f)) := by
  rw [familyArgs, familyArgs, collectApps_relabel]
  obtain ⟨head, args⟩ := e.collectApps
  cases head with
  | const name levels =>
    simp only [relabel_const, InductiveDecl.relabel, List.length_map]
    symm
    apply apply_ite
  | sort _ | bvar _ | app _ _ | lam _ _ _ | pi _ _ _ => rfl

theorem ensureCanonicalArgs_relabel (ctxLen absStart : Nat) (error : Nat → Error)
    (args : List Expr) :
    ensureCanonicalArgs ctxLen absStart error (args.map (NpaCore.Expr.relabel f)) =
      ensureCanonicalArgs ctxLen absStart error args := by
  rw [ensureCanonicalArgs, ensureCanonicalArgs, List.zipIdx_map]
  refine Result.forEach_translate (fun indexed => ?_) args.zipIdx
  obtain ⟨arg, index⟩ := indexed
  -- the expected argument is a variable, which has no names
  simp only [Prod.map, id_eq, bvarForAbs]
  split
  · simp only [Result.ok_bind, relabel_eq_bvar]
  · rfl

theorem directRecursiveIndexArgs_relabel (data : InductiveDecl) (domain : Expr) (ctxLen : Nat) :
    directRecursiveIndexArgs (data.relabel f) (NpaCore.Expr.relabel f domain) ctxLen =
      (directRecursiveIndexArgs data domain ctxLen).map (List.map (NpaCore.Expr.relabel f)) := by
  have params : (data.relabel f).params.length = data.params.length := List.length_map _
  have name : (data.relabel f).name = data.name := rfl
  have own : ∀ args : List Expr, ((args.map (NpaCore.Expr.relabel f)).all fun arg =>
      !arg.containsConst data.name) = args.all fun arg => !arg.containsConst data.name := by
    intro args
    simp only [List.all_map, Function.comp_def, containsConst_relabel]
  rw [directRecursiveIndexArgs, directRecursiveIndexArgs, familyArgs_relabel, params, name,
    Result.okOr_translate]
  refine Result.bind_translate fun args => ?_
  rw [← List.map_take, ensureCanonicalArgs_relabel, own]
  cases ensureCanonicalArgs ctxLen 0 (fun _ => .invalidInductive data.name)
      (args.take data.params.length) with
  | error e => rfl
  | ok _ =>
    cases args.all fun arg => !arg.containsConst data.name with
    | false => rfl
    | true => exact congrArg Except.ok List.map_drop.symm

theorem directMutualRecursiveIndexArgs_relabel (domain : Expr) (ctxLen : Nat)
    (names : List String) :
    directMutualRecursiveIndexArgs (env.relabel f) (NpaCore.Expr.relabel f domain) ctxLen names =
      (directMutualRecursiveIndexArgs env domain ctxLen names).map fun (name, indices) =>
        (name, indices.map (NpaCore.Expr.relabel f)) := by
  induction names with
  | nil => rfl
  | cons name rest ih =>
    rw [directMutualRecursiveIndexArgs, directMutualRecursiveIndexArgs, inductiveData_relabel]
    refine Result.bind_translate fun data => ?_
    rw [directRecursiveIndexArgs_relabel]
    cases directRecursiveIndexArgs data domain ctxLen with
    | error e => exact ih
    | ok indices => rfl

theorem mutualConstructorOffset_relabel (target : String) (offset : Nat) (names : List String) :
    mutualConstructorOffset (env.relabel f) target offset names =
      mutualConstructorOffset env target offset names := by
  induction names generalizing offset with
  | nil => rfl
  | cons name rest ih =>
    rw [mutualConstructorOffset, mutualConstructorOffset, inductiveData_relabel]
    split
    · rfl
    · cases env.inductiveData name with
      | error e => rfl
      | ok data =>
        simp only [Except.map, Result.ok_bind, ih, InductiveDecl.relabel, List.length_map]

def RecursorSpine.relabel (spine : RecursorSpine) : RecursorSpine :=
  { spine with
    prefixArgs := spine.prefixArgs.map (NpaCore.Expr.relabel f)
    constructorArgs := spine.constructorArgs.map (NpaCore.Expr.relabel f) }

variable {f}

theorem RecursorSpine.call_relabel (spine : RecursorSpine) (recursorName : String)
    (indexArgs : List Expr) (fieldArg : Expr) :
    (spine.relabel f).call recursorName (indexArgs.map (NpaCore.Expr.relabel f))
        (NpaCore.Expr.relabel f fieldArg) =
      NpaCore.Expr.relabel f (spine.call recursorName indexArgs fieldArg) := by
  simp only [RecursorSpine.call, RecursorSpine.relabel, relabel_apps, relabel_const,
    List.map_append, List.map_cons, List.map_nil]

/-- The index arguments at the arguments of the constructor. -/
theorem RecursorSpine.indices_relabel (spine : RecursorSpine) (indices : List Expr)
    (ctxLen : Nat) :
    (Result.collect (indices.map (NpaCore.Expr.relabel f)) fun arg =>
        instantiateConstructorArgs arg ((spine.relabel f).constructorArgs.take ctxLen)) =
      (Result.collect indices fun arg =>
        instantiateConstructorArgs arg (spine.constructorArgs.take ctxLen)).map
          (List.map (NpaCore.Expr.relabel f)) := by
  refine Result.collect_translate (fun arg => ?_) indices
  rw [RecursorSpine.relabel, ← List.map_take]
  exact instantiateConstructorArgsAt_relabel f _ arg 0

theorem recursiveCall_relabel (group : Option MutualGroupInfo) (data : InductiveDecl)
    (spine : RecursorSpine) (domain field : Expr) (ctxLen : Nat) :
    recursiveCall (env.relabel f) group (data.relabel f) (spine.relabel f)
        (NpaCore.Expr.relabel f domain) (NpaCore.Expr.relabel f field) ctxLen =
      (recursiveCall env group data spine domain field ctxLen).map
        (Option.map (NpaCore.Expr.relabel f)) := by
  cases group with
  | none =>
    simp only [recursiveCall, directRecursiveIndexArgs_relabel]
    cases directRecursiveIndexArgs data domain ctxLen with
    | error e => rfl
    | ok indices =>
      simp only [Except.map]
      rw [spine.indices_relabel]
      exact Result.bind_translate fun indices =>
        congrArg (fun call => Except.ok (some call)) (spine.call_relabel _ indices field)
  | some group =>
    simp only [recursiveCall, directMutualRecursiveIndexArgs_relabel]
    cases directMutualRecursiveIndexArgs env domain ctxLen group.inductives with
    | error e => rfl
    | ok found =>
      obtain ⟨fieldInductive, indices⟩ := found
      simp only [Except.map]
      cases Result.okOr (group.recursors.lookup fieldInductive)
          (Error.invalidInductive (fieldInductive ++ " has no mutual recursor")) with
      | error e => rfl
      | ok recursorName =>
        simp only [Result.ok_bind, inductiveData_relabel]
        refine Result.bind_translate fun recursiveData => ?_
        rw [spine.indices_relabel]
        refine Result.bind_translate fun indices => ?_
        simp only [List.length_map, InductiveDecl.relabel]
        cases indices.length == recursiveData.indices.length with
        | false => rfl
        | true => exact congrArg (fun call => Except.ok (some call)) (spine.call_relabel _ indices field)

theorem applyField_relabel (group : Option MutualGroupInfo) (data : InductiveDecl)
    (spine : RecursorSpine) (reduced : Expr) (field : (Expr × Expr) × Nat) :
    applyField (env.relabel f) group (data.relabel f) (spine.relabel f)
        (NpaCore.Expr.relabel f reduced)
        ((NpaCore.Expr.relabel f field.1.1, NpaCore.Expr.relabel f field.1.2), field.2) =
      (applyField env group data spine reduced field).map (NpaCore.Expr.relabel f) := by
  obtain ⟨⟨fieldArg, fieldDomain⟩, fieldIndex⟩ := field
  have params : (data.relabel f).params.length = data.params.length := List.length_map _
  simp only [applyField, params]
  rw [recursiveCall_relabel]
  refine Result.bind_translate fun call => ?_
  cases call <;> rfl

theorem applyMinor_relabel (group : Option MutualGroupInfo) (data : InductiveDecl)
    (spine : RecursorSpine) (minor : Expr) (fieldArgs fieldDomains : List Expr) :
    applyMinor (env.relabel f) group (data.relabel f) (spine.relabel f)
        (NpaCore.Expr.relabel f minor) (fieldArgs.map (NpaCore.Expr.relabel f))
        (fieldDomains.map (NpaCore.Expr.relabel f)) =
      (applyMinor env group data spine minor fieldArgs fieldDomains).map
        (NpaCore.Expr.relabel f) := by
  rw [applyMinor, applyMinor, List.zip_map, List.zipIdx_map]
  exact Result.foldEach_translate (fun reduced field => applyField_relabel env group data spine
    reduced field) _ minor

theorem blockConstructorOffset_relabel (group : Option MutualGroupInfo) (inductiveName : String) :
    blockConstructorOffset (env.relabel f) group inductiveName =
      blockConstructorOffset env group inductiveName := by
  cases group with
  | none => rfl
  | some group => exact mutualConstructorOffset_relabel f env inductiveName 0 group.inductives

theorem findConstructor_relabel (data : InductiveDecl) (name : String) :
    (data.relabel f).constructors.findIdx? (fun c => c.name = name) =
      data.constructors.findIdx? (fun c => c.name = name) := by
  simp only [InductiveDecl.relabel, List.findIdx?_map]
  rfl

theorem finishRecursorReduction_relabel (application : Expr) (inductiveName : String)
    (rules : RecursorRules) (majorWhnf : Expr) :
    finishRecursorReduction (env.relabel f) (NpaCore.Expr.relabel f application) inductiveName
        rules (NpaCore.Expr.relabel f majorWhnf) =
      (finishRecursorReduction env application inductiveName rules majorWhnf).map
        (Option.map (NpaCore.Expr.relabel f)) := by
  rw [finishRecursorReduction, finishRecursorReduction, collectApps_relabel, collectApps_relabel]
  obtain ⟨head, args⟩ := application.collectApps
  obtain ⟨majorHead, constructorArgs⟩ := majorWhnf.collectApps
  cases head with
  | const recursorName levels =>
    cases majorHead with
    | const constructorName majorLevels =>
      simp only [relabel_const, constructorBelongsTo_relabel]
      split
      · rfl
      · rw [inductiveData_relabel]
        refine Result.bind_translate fun data => ?_
        simp only [findConstructor_relabel, mutualGroup_relabel, blockConstructorOffset_relabel]
        cases data.constructors.findIdx? (fun c => c.name = constructorName) with
        | none => rfl
        | some constructorIndex =>
          simp only []
          cases blockConstructorOffset env (env.mutualGroup inductiveName) inductiveName with
          | error e => rfl
          | ok offset =>
            simp only [Result.ok_bind, List.getElem?_map, InductiveDecl.relabel]
            cases args[rules.minorStart + offset + constructorIndex]? with
            | none => rfl
            | some minor =>
              cases data.constructors[constructorIndex]? with
              | none => rfl
              | some constructor =>
                simp only [Option.map_some, ConstructorDecl.relabel, peelPiDomains_relabel,
                  List.length_map, ← List.map_drop, ← List.map_take]
                split
                · rfl
                · split
                  · rfl
                  · have applied := applyMinor_relabel (f := f) env (env.mutualGroup inductiveName)
                      data ⟨recursorName, levels, args.take (rules.majorIndex - data.indices.length),
                        constructorArgs⟩ minor (constructorArgs.drop data.params.length)
                      (constructor.ty.peelPiDomains.1.drop data.params.length)
                    simp only [RecursorSpine.relabel, InductiveDecl.relabel] at applied
                    rw [applied]
                    refine Result.bind_translate fun reduced => ?_
                    rw [← relabel_apps]
                    rfl
    | sort _ | bvar _ | app _ _ | lam _ _ _ | pi _ _ _ => rfl
  | sort _ | bvar _ | app _ _ | lam _ _ _ | pi _ _ _ => rfl

end Recursor

end NpaCore.Kernel
