import NpaCore.Frontend.Scoping

/-!
# The two passes agree about scopes

Resolution marks a name as local when it is in a set of names, and elaboration looks a marked
name up by its position. Both sets of names are the bound names of the scope, so what comes out
is the translation of the source, and no marked name is missing.

## Main results

- `resolveIdent_eq_ok`: which names are marked.
- `elaborate_resolved`: a resolved term elaborates to the translation of its source, or fails
  for another reason than an unknown local name.
-/

namespace NpaCore.Frontend

/-! ### Failures that are not about local names -/

/-- The result is as described, or the failure is not that of an unknown local name. -/
def Scoped {α : Type} (P : α → Prop) : MachineResult α → Prop
  | .ok a => P a
  | .error diagnostic => diagnostic.kind ≠ .unknownLocalName

section Scoped

variable {α β : Type} {P : α → Prop} {Q : β → Prop} {x : MachineResult α}

theorem Scoped.of_ok {a : α} (h : Scoped P x) (ok : x = .ok a) : P a := by
  subst ok
  exact h

theorem Scoped.of_error {diagnostic : MachineDiagnostic} (h : Scoped P x)
    (error : x = .error diagnostic) : diagnostic.kind ≠ .unknownLocalName := by
  subst error
  exact h

theorem scoped_bind {f : α → MachineResult β} (first : Scoped P x)
    (rest : ∀ a, P a → Scoped Q (f a)) : Scoped Q (x >>= f) := by
  cases x with
  | error diagnostic => exact first
  | ok a => exact rest a first

theorem scoped_mono {P' : α → Prop} (h : Scoped P x) (weaker : ∀ a, P a → P' a) : Scoped P' x := by
  cases x with
  | error diagnostic => exact h
  | ok a => exact weaker a h

theorem scoped_collect {step : α → MachineResult β} {g : α → β}
    (each : ∀ a, Scoped (fun b => b = g a) (step a)) (items : List α) :
    Scoped (fun outcomes => outcomes = items.map g) (Result.collect items step) := by
  induction items with
  | nil => rfl
  | cons item rest ih =>
    rw [Result.collect_cons]
    refine scoped_bind (each item) fun first same => ?_
    refine scoped_bind ih fun others sames => ?_
    exact congrArg₂ List.cons same sames

end Scoped

/-! ### Levels -/

theorem levelFromNat_scoped (value : UInt64) :
    Scoped (fun level => level = natLevel value.toNat) (levelFromNat value) := by
  have counted : ∀ n, (List.range n).foldl (fun level _ => NpaCore.Level.succ level)
      (NpaCore.Level.zero : Kernel.Level) = natLevel n := by
    intro n
    induction n with
    | zero => rfl
    | succ n ih => simp only [List.range_succ, List.foldl_append, List.foldl_cons, List.foldl_nil,
        ih, natLevel]
  unfold levelFromNat
  split
  · simp [Scoped, universeLevelTooLarge]
  · exact counted _

theorem elaborateLevel_scoped (level : MachineLevel) :
    Scoped (fun elaborated => elaborated = translateLevel level) (elaborateLevel level) := by
  induction level with
  | nat value => exact levelFromNat_scoped value
  | param name => rfl
  | succ level ih => exact scoped_bind ih fun _ same => congrArg NpaCore.Level.succ same
  | max lhs rhs ihLhs ihRhs =>
    refine scoped_bind ihLhs fun _ sameLhs => scoped_bind ihRhs fun _ sameRhs => ?_
    exact congrArg₂ NpaCore.Level.max sameLhs sameRhs
  | imax lhs rhs ihLhs ihRhs =>
    refine scoped_bind ihLhs fun _ sameLhs => scoped_bind ihRhs fun _ sameRhs => ?_
    exact congrArg₂ NpaCore.Level.imax sameLhs sameRhs

theorem elaborateUniverseArgs_scoped (args : Option (List MachineLevel)) (expected : Nat)
    (explicitMode : Bool) (name : String) :
    Scoped (fun levels => levels = (args.getD []).map translateLevel ∧
        (args.getD []).length = expected)
      (Elaborator.elaborateUniverseArgs args expected explicitMode name) := by
  cases args with
  | some args =>
    simp only [Elaborator.elaborateUniverseArgs]
    split
    next other => simp [Scoped]
    next same =>
      refine scoped_mono (scoped_collect elaborateLevel_scoped args) fun levels translated => ?_
      exact ⟨translated, not_not.mp same⟩
  | none =>
    simp only [Elaborator.elaborateUniverseArgs]
    split
    next none => exact ⟨rfl, none.symm⟩
    next => split <;> simp [Scoped, Elaborator.requiresExplicitArguments]

variable {universeParams : List String}

/-- Resolution checks a level and leaves it as it is. -/
theorem resolveLevel_eq {level resolved : MachineLevel}
    (h : resolveLevel universeParams level = .ok resolved) : resolved = level := by
  induction level generalizing resolved with
  | nat value =>
    cases h
    rfl
  | param name =>
    rw [resolveLevel] at h
    split at h
    · cases h
      rfl
    · cases h
  | succ level ih =>
    obtain ⟨inner, hinner, h⟩ := Result.bind_eq_ok.mp h
    cases h
    rw [ih hinner]
  | max lhs rhs ihLhs ihRhs | imax lhs rhs ihLhs ihRhs =>
    obtain ⟨left, hleft, h⟩ := Result.bind_eq_ok.mp h
    obtain ⟨right, hright, h⟩ := Result.bind_eq_ok.mp h
    cases h
    rw [ihLhs hleft, ihRhs hright]

theorem resolveLevels_eq {levels resolved : List MachineLevel}
    (h : Result.collect levels (resolveLevel universeParams) = .ok resolved) :
    resolved = levels := by
  induction levels generalizing resolved with
  | nil =>
    cases h
    rfl
  | cons level rest ih =>
    rw [Result.collect_cons] at h
    obtain ⟨first, hfirst, h⟩ := Result.bind_eq_ok.mp h
    obtain ⟨others, hothers, h⟩ := Result.bind_eq_ok.mp h
    cases h
    rw [resolveLevel_eq hfirst, ih hothers]

theorem resolveUniverseArgs_eq {args resolved : Option (List MachineLevel)}
    (h : resolveUniverseArgs universeParams args = .ok resolved) : resolved = args := by
  cases args with
  | none =>
    cases h
    rfl
  | some args =>
    obtain ⟨levels, hlevels, h⟩ := Result.bind_eq_ok.mp h
    cases h
    rw [resolveLevels_eq hlevels]

/-! ### Scopes -/

/-- The bound names, the innermost first. -/
def LocalScope.scope (locals : LocalScope) : List String := locals.names.reverse

def LocalContext.scope (locals : LocalContext) : List String :=
  (locals.locals.map ElaboratedBinder.name).reverse

@[simp] theorem LocalScope.scope_push (locals : LocalScope) (name : String) :
    (locals.push name).scope = name :: locals.scope := by
  simp [LocalScope.push, LocalScope.scope]

@[simp] theorem LocalContext.scope_pushAssumption (locals : LocalContext) (name : String)
    (ty : Kernel.Expr) : (locals.pushAssumption name ty).scope = name :: locals.scope := by
  simp [LocalContext.pushAssumption, LocalContext.scope]

theorem LocalScope.contains_iff {locals : LocalScope} {name : String} :
    locals.contains name = true ↔ ∃ index, locals.scope.idxOf? name = some index := by
  rw [← Option.isSome_iff_exists, List.isSome_idxOf?, LocalScope.scope, List.mem_reverse,
    LocalScope.contains, List.contains_iff_mem]

theorem LocalContext.lookupBvar_eq (locals : LocalContext) (name : String) :
    locals.lookupBvar name = (locals.scope.idxOf? name).map (· % 2 ^ 32) := by
  rw [LocalContext.lookupBvar, LocalContext.scope, ← List.map_reverse, List.idxOf?,
    List.findIdx?_map]
  congr 2

/-- A name is marked as local when a binder binds it, and is otherwise a name of the table. -/
theorem resolveIdent_eq_ok {globals : GlobalTable}
    {locals : LocalScope} {name : MachineName} {universeArgs : Option (List MachineLevel)}
    {explicitMode : Bool} {resolved : MachineTerm}
    (h : resolveIdent globals universeParams locals name universeArgs explicitMode = .ok resolved) :
    (∃ part index, boundPosition locals.scope name universeArgs explicitMode = some index ∧
      locals.scope.idxOf? part = some index ∧ resolved = .local part) ∨
    (boundPosition locals.scope name universeArgs explicitMode = none ∧
      globals.names.lookup name.asDotted = some .resolved ∧
      resolved = .ident name universeArgs explicitMode) := by
  -- a name that is not local is one that the table resolves
  have unbound (h : resolveGlobal globals universeParams name universeArgs explicitMode =
      .ok resolved) : globals.names.lookup name.asDotted = some .resolved ∧
        resolved = .ident name universeArgs explicitMode := by
    obtain ⟨args, hargs, h⟩ := Result.bind_eq_ok.mp h
    rw [resolveUniverseArgs_eq hargs] at h
    cases entry : globals.names.lookup name.asDotted with
    | some entry' =>
      cases entry' with
      | resolved =>
        simp only [GlobalTable.lookup, entry] at h
        cases h
        exact ⟨rfl, rfl⟩
      | ambiguous =>
        simp only [GlobalTable.lookup, entry] at h
        cases h
    | none =>
      simp only [GlobalTable.lookup, entry] at h
      split at h
      next found =>
        exfalso
        revert found
        split
        · split
          · exact nofun
          · split <;> exact nofun
        · exact nofun
      all_goals cases h
  rw [resolveIdent] at h
  cases part : localPart name universeArgs explicitMode with
  | none =>
    rw [part] at h
    exact .inr ⟨by rw [boundPosition, part]; rfl, unbound h⟩
  | some name' =>
    rw [part] at h
    simp only [] at h
    have position : boundPosition locals.scope name universeArgs explicitMode =
        locals.scope.idxOf? name' := by
      rw [boundPosition, part]
      rfl
    split at h
    next found =>
      cases h
      obtain ⟨index, here⟩ := LocalScope.contains_iff.mp found
      exact .inl ⟨name', index, position.trans here, here, rfl⟩
    next missing =>
      refine .inr ⟨?_, unbound h⟩
      rw [position, ← Option.not_isSome_iff_eq_none, Option.isSome_iff_exists]
      exact fun bound => missing (LocalScope.contains_iff.mpr bound)

/-! ### Checks -/

theorem kernelExprDiagnostic_kind (debug : DebugTexts) (error : Kernel.Error) :
    (kernelExprDiagnostic debug error).kind ≠ .unknownLocalName := by
  cases error <;> simp [kernelExprDiagnostic]

theorem scoped_mapError {α : Type} {P : α → Prop} (debug : DebugTexts) {x : Kernel.Result α}
    (holds : ∀ a, x = .ok a → P a) : Scoped P (x.mapError (kernelExprDiagnostic debug)) := by
  cases x with
  | error error => exact kernelExprDiagnostic_kind debug error
  | ok a => exact holds a rfl

section Terms

variable (elaborator : Elaborator) (alloc : Kernel.Allocator) (debug : DebugTexts)
  (delta : List String)

theorem ensureType_scoped (expr : Kernel.Expr) (locals : LocalContext) :
    Scoped (fun _ => True) (elaborator.ensureType alloc debug expr locals delta) := by
  refine scoped_bind (scoped_mapError debug fun _ _ => trivial) fun inferred _ => ?_
  refine scoped_bind (scoped_mapError debug fun _ _ => trivial) fun reduced _ => ?_
  split
  · trivial
  · simp [Scoped]

theorem checkExpr_scoped (expr expected : Kernel.Expr) (locals : LocalContext) :
    Scoped (fun _ => True) (elaborator.checkExpr alloc debug expr expected locals delta) :=
  scoped_mapError debug fun _ _ => trivial

theorem implicitApplicationDiagnostic_kind {func arg : MachineTerm}
    {diagnostic : MachineDiagnostic}
    (h : elaborator.implicitApplicationDiagnostic func arg = some diagnostic) :
    diagnostic.kind ≠ .unknownLocalName := by
  rw [Elaborator.implicitApplicationDiagnostic] at h
  generalize machineAppSpine func arg = spine at h
  obtain ⟨head, args⟩ := spine
  cases head with
  | ident name universeArgs explicitMode =>
    simp only [Option.ite_none_left_eq_some, Option.ite_none_right_eq_some, Option.some.injEq] at h
    obtain ⟨-, -, -, rfl⟩ := h
    simp [Elaborator.requiresExplicitArguments]
  | _ => cases h

/-- What the table resolves is one global, and the elaborator knows its universe parameters. -/
def Knows (table : GlobalTable) (elaborator : Elaborator) (globals : Globals) : Prop :=
  ∀ dotted, table.names.lookup dotted = some .resolved → ∃ params,
    (globals.filter fun entry => entry.1 = dotted) = [(dotted, params)] ∧
      elaborator.universeParamCount dotted = params.length

/-- The closing of a telescope sees the positions of its parts only. -/
def ClosesU32 (close : String → Kernel.Expr → Kernel.Expr → Kernel.Expr) : Prop :=
  ∀ name ty body, (close name ty body).asU32 = close name ty.asU32 body.asU32

theorem closesU32_lam : ClosesU32 NpaCore.Expr.lam := fun _ _ _ => rfl

theorem closesU32_pi : ClosesU32 NpaCore.Expr.pi := fun _ _ _ => rfl

/-- What is closed over the telescope is the translation when its body is, and the types of the
    telescope use globals when all names that the table resolves are globals. -/
structure TelescopeElaborates (known : Prop) (globals : Globals) (scope inner : List String)
    (binders : List MachineBinder) (elaborated : List ElaboratedBinder) : Prop where
  closes : ∀ close, ClosesU32 close → ∀ body : List String → Kernel.Expr,
    elaborated.foldr (fun binder rest => close binder.name binder.ty rest) (body inner).asU32 =
      (translateBinders close scope binders body).asU32
  uses : known → ∀ body : List String → Prop, body inner →
    BindersUseGlobals globals scope binders body

variable {elaborator} {table : GlobalTable} {globals : Globals} {universeParams : List String}

mutual

theorem elaborate_resolved (term : MachineTerm) {locals : LocalScope} {context : LocalContext}
    {resolved : MachineTerm} (surface : term.Spelled anySpelling)
    (names : context.scope = locals.scope)
    (h : resolveTerm table universeParams locals term = .ok resolved) :
    Scoped (fun elaborated => elaborated = (translateTerm locals.scope term).asU32 ∧
        (Knows table elaborator globals → UsesGlobals globals locals.scope term))
      (elaborator.elaborateTerm alloc debug delta context resolved) := by
  match term with
  | .ident name universeArgs explicitMode =>
    obtain ⟨part, index, position, here, rfl⟩ | ⟨position, entry, rfl⟩ := resolveIdent_eq_ok h
    · -- the marked name has a position in the context, which has the same names
      have found : context.lookupBvar part = some (index % 2 ^ 32) := by
        rw [LocalContext.lookupBvar_eq, names, here]
        rfl
      simp only [Elaborator.elaborateTerm, found, Result.okOr]
      refine ⟨?_, fun _ unbound => ?_⟩
      · simp only [translateTerm, position]
        rfl
      · rw [position] at unbound
        cases unbound
    · -- a name of the table, with as many levels as it has parameters
      simp only [Elaborator.elaborateTerm]
      refine scoped_bind (elaborateUniverseArgs_scoped universeArgs _ explicitMode _) ?_
      rintro levels ⟨rfl, counted⟩
      refine ⟨?_, fun knows _ => ?_⟩
      · simp only [translateTerm, position]
        rfl
      · obtain ⟨params, one, count⟩ := knows _ entry
        exact ⟨params, one, counted.trans count⟩
  | .local name => exact surface.elim
  | .prop =>
    cases h
    exact ⟨rfl, fun _ => trivial⟩
  | .type level =>
    obtain ⟨level', hlevel, h⟩ := Result.bind_eq_ok.mp h
    cases h
    rw [resolveLevel_eq hlevel]
    refine scoped_bind (elaborateLevel_scoped level) ?_
    rintro _ rfl
    exact ⟨rfl, fun _ => trivial⟩
  | .sort level =>
    obtain ⟨level', hlevel, h⟩ := Result.bind_eq_ok.mp h
    cases h
    rw [resolveLevel_eq hlevel]
    refine scoped_bind (elaborateLevel_scoped level) ?_
    rintro _ rfl
    exact ⟨rfl, fun _ => trivial⟩
  | .app func arg =>
    obtain ⟨func', hfunc, h⟩ := Result.bind_eq_ok.mp h
    obtain ⟨arg', harg, h⟩ := Result.bind_eq_ok.mp h
    cases h
    simp only [Elaborator.elaborateTerm]
    split
    -- an application that needs implicit arguments is refused before its parts are elaborated
    next diagnostic implicit => exact implicitApplicationDiagnostic_kind elaborator implicit
    next =>
      refine scoped_bind (elaborate_resolved func surface.1 names hfunc) ?_
      rintro _ ⟨rfl, usesFunc⟩
      refine scoped_bind (elaborate_resolved arg surface.2 names harg) ?_
      rintro _ ⟨rfl, usesArg⟩
      exact ⟨rfl, fun knows => ⟨usesFunc knows, usesArg knows⟩⟩
  | .lam binders body =>
    obtain ⟨⟨binders', nested⟩, hbinders, h⟩ := Result.bind_eq_ok.mp h
    obtain ⟨body', hbody, h⟩ := Result.bind_eq_ok.mp h
    cases h
    simp only [Elaborator.elaborateTerm]
    refine scoped_bind (elaborate_binders binders surface.2.1 names hbinders) ?_
    rintro ⟨elaborated, inner⟩ ⟨same, telescope⟩
    refine scoped_bind (elaborate_resolved body surface.2.2 same hbody) ?_
    rintro _ ⟨rfl, uses⟩
    exact ⟨telescope.closes _ closesU32_lam fun inner => translateTerm inner body,
      fun knows => telescope.uses knows _ (uses knows)⟩
  | .pi binders body =>
    obtain ⟨⟨binders', nested⟩, hbinders, h⟩ := Result.bind_eq_ok.mp h
    obtain ⟨body', hbody, h⟩ := Result.bind_eq_ok.mp h
    cases h
    simp only [Elaborator.elaborateTerm]
    refine scoped_bind (elaborate_binders binders surface.2.1 names hbinders) ?_
    rintro ⟨elaborated, inner⟩ ⟨same, telescope⟩
    refine scoped_bind (elaborate_resolved body surface.2.2 same hbody) ?_
    rintro _ ⟨rfl, uses⟩
    exact ⟨telescope.closes _ closesU32_pi fun inner => translateTerm inner body,
      fun knows => telescope.uses knows _ (uses knows)⟩
  | .annot expr ty =>
    obtain ⟨expr', hexpr, h⟩ := Result.bind_eq_ok.mp h
    obtain ⟨ty', hty, h⟩ := Result.bind_eq_ok.mp h
    cases h
    simp only [Elaborator.elaborateTerm]
    refine scoped_bind (elaborate_resolved expr surface.1 names hexpr) ?_
    rintro _ ⟨rfl, usesExpr⟩
    refine scoped_bind (elaborate_resolved ty surface.2 names hty) ?_
    rintro _ ⟨rfl, usesTy⟩
    refine scoped_bind (ensureType_scoped elaborator alloc debug delta _ context) fun _ _ => ?_
    refine scoped_bind (checkExpr_scoped elaborator alloc debug delta _ _ context) fun _ _ => ?_
    exact ⟨rfl, fun knows => ⟨usesExpr knows, usesTy knows⟩⟩

/-- The binders of a telescope extend both scopes by the same names. -/
theorem elaborate_binders (binders : List MachineBinder) {locals nested : LocalScope} {context : LocalContext} {resolved : List MachineBinder}
    (surface : SpelledBinders anySpelling binders) (names : context.scope = locals.scope)
    (h : resolveBinders table universeParams locals binders = .ok (resolved, nested)) :
    Scoped (fun outcome : List ElaboratedBinder × LocalContext => outcome.2.scope = nested.scope ∧
        TelescopeElaborates (Knows table elaborator globals) globals locals.scope nested.scope
          binders outcome.1)
      (elaborator.elaborateBinders alloc debug delta context resolved) := by
  match binders with
  | [] =>
    cases h
    exact ⟨names, fun _ _ _ => rfl, fun _ _ holds => holds⟩
  | .mk name ty :: binders =>
    obtain ⟨⟨binder', pushed⟩, hbinder, h⟩ := Result.bind_eq_ok.mp h
    obtain ⟨⟨binders', nested'⟩, hbinders, h⟩ := Result.bind_eq_ok.mp h
    cases h
    obtain ⟨_, _, hbinder⟩ := Result.bind_eq_ok.mp hbinder
    obtain ⟨ty', hty, hbinder⟩ := Result.bind_eq_ok.mp hbinder
    cases hbinder
    have extended : ∀ elaborated, (context.pushAssumption name elaborated).scope =
        (locals.push name).scope := by
      intro elaborated
      rw [LocalContext.scope_pushAssumption, LocalScope.scope_push, names]
    simp only [Elaborator.elaborateBinders, Elaborator.elaborateBinder]
    refine scoped_bind (P := fun outcome : ElaboratedBinder × LocalContext =>
      outcome = (⟨name, (translateTerm locals.scope ty).asU32⟩,
        context.pushAssumption name (translateTerm locals.scope ty).asU32) ∧
      (Knows table elaborator globals → UsesGlobals globals locals.scope ty)) ?_ ?_
    · refine scoped_bind (elaborate_resolved ty surface.2.1 names hty) ?_
      rintro _ ⟨rfl, uses⟩
      exact ⟨rfl, uses⟩
    · rintro _ ⟨rfl, usesTy⟩
      refine scoped_bind (elaborate_binders binders surface.2.2 (extended _) hbinders) ?_
      rintro ⟨elaborated, inner⟩ ⟨same, telescope⟩
      rw [LocalScope.scope_push] at telescope
      refine ⟨same, fun close closes body => ?_, fun knows body holds => ?_⟩
      · simp only [List.foldr_cons, translateBinders]
        rw [closes, telescope.closes close closes body]
      · exact ⟨usesTy knows, telescope.uses knows body holds⟩

end

end Terms

end NpaCore.Frontend
