import NpaCore.Frontend.RenamingSafety

/-!
# Scopes of whole modules

The passes over a module: the table of global names that resolution builds says how often a
name is declared, the elaborator knows the signature of each of these names, and both go
through the declarations in the same order.

## Main results

- `addImports_active`: both passes import the same modules.
- `elaborate_items`: the declarations of a module are the translations of its source.
- `renamed_items`: a renamed module is accepted, with the same declarations up to names.
-/

namespace NpaCore.Frontend

open NpaCore.Kernel (Declaration forgetNames)

/-! ### The table of global names -/

/-- A name is in the table when it is declared, and ambiguous when it is so more than once. -/
def Tabulates (table : GlobalTable) (globals : Globals) : Prop :=
  ∀ dotted, table.names.lookup dotted =
    match globals.filter fun entry => entry.1 = dotted with
    | [] => none
    | [_] => some .resolved
    | _ => some .ambiguous

theorem tabulates_empty : Tabulates .empty [] := fun _ => rfl

variable {globals : Globals} {table table' : GlobalTable}

theorem addGlobalName_tabulates
    {components params : List String} {isDeclaration : Bool} (tabulates : Tabulates table globals)
    (h : table.addGlobalName components isDeclaration = .ok table') :
    Tabulates table' (globals ++ [(".".intercalate components, params)]) := by
  intro dotted
  have before := tabulates dotted
  simp only [List.filter_append, List.filter_cons, List.filter_nil, decide_eq_true_eq]
  by_cases same : ".".intercalate components = dotted
  · rw [if_pos same]
    subst same
    rw [GlobalTable.addGlobalName] at h
    rw [before] at h
    split at h
    next entry found =>
      split at h
      · cases h
      · revert before found h
        rcases globals.filter _ with _ | ⟨first, _ | ⟨second, others⟩⟩
        · exact fun _ => nofun
        · rintro _ ⟨⟩ ⟨⟩
          simp [GlobalTable.insertName, GlobalTable.insertAffixes]
        · rintro before ⟨⟩ ⟨⟩
          exact before
    next missing =>
      revert missing
      rcases globals.filter _ with _ | ⟨first, _ | ⟨second, others⟩⟩
      · intro _
        cases h
        simp [GlobalTable.insertName, GlobalTable.insertAffixes]
      · exact nofun
      · exact nofun
  · rw [if_neg same, List.append_nil, ← before]
    have kept : ∀ entry, (table.insertName (".".intercalate components) entry).names.lookup dotted =
        table.names.lookup dotted := by
      intro entry
      simp [GlobalTable.insertName, List.lookup_cons, beq_false_of_ne (Ne.symm same)]
    rw [GlobalTable.addGlobalName] at h
    split at h
    · split at h
      · cases h
      · split at h
        · cases h
          exact kept _
        · cases h
          rfl
    · cases h
      exact kept _

variable {verified : VerifiedImport}

theorem addImport_tabulates (tabulates : Tabulates table globals)
    (h : table.addImport verified = .ok table') :
    Tabulates table' (globals ++ exportedGlobals [verified]) := by
  have exports : ∀ (exports : List VerifiedExport) {table table' : GlobalTable} {globals : Globals},
      Tabulates table globals →
      (Result.foldEach exports table fun table exported =>
        table.addGlobalName exported.name.components false) = .ok table' →
      Tabulates table' (globals ++ exports.map fun exported =>
        (exported.name.asDotted, exported.universeParams)) := by
    intro exports
    induction exports with
    | nil =>
      intro table table' globals tabulates h
      cases h
      rwa [List.map_nil, List.append_nil]
    | cons exported rest ih =>
      intro table table' globals tabulates h
      rw [Result.foldEach_cons] at h
      obtain ⟨next, first, h⟩ := Result.bind_eq_ok.mp h
      have added : Tabulates next
          (globals ++ [(exported.name.asDotted, exported.universeParams)]) :=
        addGlobalName_tabulates tabulates first
      have others := ih added h
      rw [List.append_assoc] at others
      exact others
  have whole := exports verified.exports tabulates h
  rwa [exportedGlobals, List.flatMap_cons, List.flatMap_nil, List.append_nil]

/-! ### Roots -/

theorem addGlobalName_roots {components : List String}
    {isDeclaration : Bool} (h : table.addGlobalName components isDeclaration = .ok table') :
    table'.roots = components.head?.toList ++ table.roots := by
  rw [GlobalTable.addGlobalName] at h
  split at h
  · split at h
    · cases h
    · split at h <;> cases h <;> rfl
  · cases h
    rfl

theorem addImport_roots (h : table.addImport verified = .ok table') {root : String} :
    root ∈ table'.roots ↔
      root ∈ (verified.exports.flatMap fun exported => exported.name.components.head?.toList) ∨
        root ∈ table.roots := by
  rw [GlobalTable.addImport] at h
  generalize verified.exports = exports at h ⊢
  induction exports generalizing table with
  | nil =>
    cases h
    simp
  | cons exported rest ih =>
    rw [Result.foldEach_cons] at h
    obtain ⟨next, first, h⟩ := Result.bind_eq_ok.mp h
    rw [ih h, addGlobalName_roots first, List.mem_append, List.flatMap_cons, List.mem_append]
    tauto

/-! ### Imports -/

variable {verifiedImports : List VerifiedImport}

theorem findVerifiedImport_module {name : MachineName}
    (h : findVerifiedImport verifiedImports name = .ok verified) :
    verified.module = ⟨name.parts⟩ := by
  rw [findVerifiedImport] at h
  split at h
  · cases h
  next first others candidates =>
    split at h
    · cases h
    · cases h
      have mem : verified ∈ verifiedImports.filter fun candidate =>
          candidate.module = ⟨name.parts⟩ := by
        rw [candidates]
        exact List.mem_cons_self
      simpa using (List.mem_filter.mp mem).2

/-- The keys that resolution has seen are those of the names that elaboration has seen. -/
def SameSeen (verifiedImports : List VerifiedImport)
    (seen : List (Wire.Name × Wire.Hash × Option Wire.Hash)) (seenParts : List (List String)) :
    Prop :=
  ∀ name verified, findVerifiedImport verifiedImports name = .ok verified →
    (verified.key ∈ seen ↔ name.parts ∈ seenParts)

theorem SameSeen.cons
    {seen : List (Wire.Name × Wire.Hash × Option Wire.Hash)} {seenParts : List (List String)}
    (same : SameSeen verifiedImports seen seenParts) {name : MachineName}
    (found : findVerifiedImport verifiedImports name = .ok verified) :
    SameSeen verifiedImports (verified.key :: seen) (name.parts :: seenParts) := by
  intro other verified' found'
  rw [List.mem_cons, List.mem_cons, same other verified' found']
  refine or_congr_left ?_
  constructor
  · intro keys
    have modules : verified'.module = verified.module := congrArg Prod.fst keys
    rw [findVerifiedImport_module found, findVerifiedImport_module found'] at modules
    exact congrArg Wire.Name.components modules
  · intro parts
    obtain ⟨parts'⟩ := other
    obtain ⟨parts''⟩ := name
    cases (parts : parts' = parts'')
    rw [found] at found'
    cases found'
    rfl

/-- Both passes import the same modules, each once. -/
theorem addImports_active {items : List MachineItem}
    {seen : List (Wire.Name × Wire.Hash × Option Wire.Hash)} {seenParts : List (List String)}
    (same : SameSeen verifiedImports seen seenParts) (tabulates : Tabulates table globals)
    (h : addImports verifiedImports seen table items = .ok table') :
    ∃ imports, activeVerifiedImports verifiedImports seenParts items = .ok imports ∧
      Tabulates table' (globals ++ exportedGlobals imports) ∧
      ∀ root, root ∈ table'.roots ↔
        root ∈ ((imports.flatMap VerifiedImport.exports).flatMap fun exported =>
          exported.name.components.head?.toList) ∨ root ∈ table.roots := by
  induction items generalizing seen seenParts table globals with
  | nil =>
    cases h
    refine ⟨[], rfl, ?_, by simp⟩
    rwa [exportedGlobals, List.flatMap_nil, List.map_nil, List.append_nil]
  | cons item items ih =>
    cases item with
    | defDecl _ | theoremDecl _ => exact ih same tabulates h
    | importModule name =>
      obtain ⟨verified, found, h⟩ := Result.bind_eq_ok.mp h
      split at h
      next known =>
        obtain ⟨imports, active, rest⟩ := ih same tabulates h
        refine ⟨imports, ?_, rest⟩
        have known' := (same name verified found).mp known
        simp only [activeVerifiedImports, List.contains_iff_mem.mpr known', if_true, active]
      next fresh =>
        obtain ⟨next, added, h⟩ := Result.bind_eq_ok.mp h
        obtain ⟨imports, active, others, roots⟩ :=
          ih (same.cons found) (addImport_tabulates tabulates added) h
        have fresh' : ¬ seenParts.contains name.parts = true := fun known =>
          fresh ((same name verified found).mpr (List.contains_iff_mem.mp known))
        refine ⟨verified :: imports, ?_, ?_, fun root => ?_⟩
        · simp only [activeVerifiedImports, if_neg fresh', found, active, Result.ok_bind]
        · rw [List.append_assoc] at others
          simpa [exportedGlobals] using others
        · rw [roots, addImport_roots added, List.flatMap_cons, List.flatMap_append, List.mem_append]
          tauto

/-! ### Signatures -/

/-- The signatures are those of the globals, the newest first, and none has implicit
    arguments. -/
structure Signs (elaborator : Elaborator) (globals : Globals) : Prop where
  names : (elaborator.globals.map fun entry => (entry.1, entry.2.universeParams)) = globals.reverse
  explicit : ∀ entry ∈ elaborator.globals, entry.2.implicitProfile = []

variable {elaborator : Elaborator}

theorem Signs.add (signs : Signs elaborator globals) (name : String) (params : List String) :
    Signs (elaborator.addGlobalSignature name ⟨params, []⟩) (globals ++ [(name, params)]) where
  names := by
    rw [List.reverse_append, ← signs.names]
    rfl
  explicit := List.forall_mem_cons.mpr ⟨rfl, signs.explicit⟩

theorem Signs.implicitProfile
    (signs : Signs elaborator globals) (name : String) : elaborator.implicitProfile name = [] := by
  rw [Elaborator.implicitProfile]
  split
  next signature found =>
    obtain ⟨before, after, split, _⟩ := List.lookup_eq_some_iff.mp found
    refine signs.explicit (name, signature) ?_
    rw [split]
    exact List.mem_append_right _ List.mem_cons_self
  next => rfl

theorem signs_new (imports : List VerifiedImport) (kernelEnv : Kernel.Env) :
    Signs (Elaborator.new imports kernelEnv) (exportedGlobals imports) := by
  have exports : ∀ (exports : List VerifiedExport) (elaborator : Elaborator) (globals : Globals),
      Signs elaborator globals →
      Signs (exports.foldl (fun elaborator exported =>
          elaborator.addGlobalSignature exported.name.asDotted ⟨exported.universeParams, []⟩) elaborator)
        (globals ++ exports.map fun exported => (exported.name.asDotted, exported.universeParams)) := by
    intro exports
    induction exports with
    | nil =>
      intro elaborator globals signs
      rwa [List.map_nil, List.append_nil]
    | cons exported rest ih =>
      intro elaborator globals signs
      have others := ih _ _ (signs.add exported.name.asDotted exported.universeParams)
      rw [List.append_assoc] at others
      exact others
  exact exports _ _ [] ⟨rfl, nofun⟩

theorem lookup_eq_head_filter {α : Type} (entries : List (String × α)) (name : String) :
    entries.lookup name = ((entries.filter fun entry => entry.1 = name).head?).map Prod.snd := by
  induction entries with
  | nil => rfl
  | cons entry rest ih =>
    obtain ⟨key, value⟩ := entry
    by_cases same : key = name
    · simp [same]
    · simp [List.lookup_cons, same, beq_false_of_ne (Ne.symm same), ih]

variable {table : GlobalTable}

/-- A name that the table resolves is one global, whose signature the elaborator finds. -/
theorem knows_of_signs (tabulates : Tabulates table globals) (signs : Signs elaborator globals) :
    Knows table elaborator globals := by
  intro dotted entry
  rw [tabulates] at entry
  split at entry
  · cases entry
  next first one =>
    have mem : first ∈ globals.filter fun entry => entry.1 = dotted := by
      rw [one]
      exact List.mem_cons_self
    obtain ⟨name, params⟩ := first
    obtain rfl : name = dotted := by simpa using (List.mem_filter.mp mem).2
    refine ⟨params, one, ?_⟩
    -- the filtered signatures are the filtered globals, of which there is one
    have filtered : ((elaborator.globals.filter fun entry => entry.1 = name).map
        fun entry => (entry.1, entry.2.universeParams)) = [(name, params)] := by
      have swap : (fun entry : String × GlobalSignature => decide (entry.1 = name)) =
          (fun entry : String × List String => decide (entry.1 = name)) ∘
            fun entry => (entry.1, entry.2.universeParams) := rfl
      rw [swap, ← List.filter_map, signs.names, List.filter_reverse, one]
      rfl
    rw [Elaborator.universeParamCount, lookup_eq_head_filter]
    obtain ⟨⟨_, signature⟩, only, same⟩ := List.map_eq_singleton_iff.mp filtered
    cases same
    rw [only]
    rfl
  · cases entry

/-! ### Declarations of both kinds -/

/-- The item of a declaration. -/
def DeclKind.item (decl : MachineDecl) : Elaborator.DeclKind → MachineItem
  | .defDecl reducibility => .defDecl ⟨decl, reducibility⟩
  | .theoremDecl => .theoremDecl decl

/-- A theorem is not exposed, as a reducible definition is not. -/
def DeclKind.reducibility : Elaborator.DeclKind → DefinitionReducibility
  | .defDecl reducibility => reducibility
  | .theoremDecl => .reducible

theorem resolveItems_cons (table : GlobalTable) (decl : MachineDecl) (kind : Elaborator.DeclKind)
    (items : List MachineItem) :
    resolveItems table (DeclKind.item decl kind :: items) = (do
      let resolved ← resolveDecl table decl
      let table ← table.addLocalDecl resolved.name
      let items ← resolveItems table items
      .ok (DeclKind.item resolved kind :: items)) := by
  cases kind <;> rfl

section Items

variable (alloc : Kernel.Allocator) (debug : DebugTexts)

theorem elaborateItems_cons (elaborator : Elaborator) (decl : MachineDecl)
    (kind : Elaborator.DeclKind) (items : List MachineItem) :
    elaborator.elaborateItems alloc debug (DeclKind.item decl kind :: items) = (do
      let decl ← elaborator.elaborateDecl alloc debug decl kind
      let elaborator ← elaborator.addDeclToKernelEnv alloc debug decl
      let elaborator ← elaborator.exposeOpaqueDefinition (DeclKind.reducibility kind) decl.name
      let decls ← (elaborator.addDeclSignature decl).elaborateItems alloc debug items
      .ok (decl :: decls)) := by
  cases kind <;> rfl

/-! ### Elaboration of declarations -/

theorem elaborateDecl_scoped
    (knows : Knows table elaborator globals) {decl resolved : MachineDecl} (surface : decl.Surface)
    (h : resolveDecl table decl = .ok resolved) (kind : Elaborator.DeclKind) :
    Scoped (fun elaborated =>
        (translateItem (DeclKind.item decl kind)).map Declaration.asU32 = some elaborated ∧
          decl.UsesGlobals globals)
      (elaborator.elaborateDecl alloc debug resolved kind) := by
  obtain ⟨_, _, h⟩ := Result.bind_eq_ok.mp h
  obtain ⟨⟨binders, locals⟩, hbinders, h⟩ := Result.bind_eq_ok.mp h
  obtain ⟨ty, hty, h⟩ := Result.bind_eq_ok.mp h
  obtain ⟨value, hvalue, h⟩ := Result.bind_eq_ok.mp h
  cases h
  have telescopes : Scoped (fun outcome : List ElaboratedBinder × LocalContext =>
        outcome.2.scope = locals.scope ∧ TelescopeElaborates (Knows table elaborator globals)
          globals [] locals.scope decl.binders outcome.1)
      (elaborator.elaborateBinders alloc debug
        (decl.universeParams.map MachineUniverseParam.name) .empty binders) :=
    elaborate_binders alloc debug _ decl.binders surface.binders rfl hbinders
  rw [Elaborator.elaborateDecl]
  refine scoped_bind telescopes ?_
  rintro ⟨elaborated, context⟩ ⟨names, telescope⟩
  have terms : ∀ {term resolved : MachineTerm}, term.Spelled anySpelling →
      resolveTerm table (decl.universeParams.map MachineUniverseParam.name) locals term =
        .ok resolved →
      Scoped (fun elaborated => elaborated = (translateTerm locals.scope term).asU32 ∧
          (Knows table elaborator globals → UsesGlobals globals locals.scope term))
        (elaborator.elaborateTerm alloc debug
          (decl.universeParams.map MachineUniverseParam.name) context resolved) :=
    fun spelled resolves => elaborate_resolved alloc debug _ _ spelled names resolves
  refine scoped_bind (terms surface.ty hty) ?_
  rintro _ ⟨rfl, usesTy⟩
  refine scoped_bind (terms surface.value hvalue) ?_
  rintro _ ⟨rfl, usesValue⟩
  have uses : decl.UsesGlobals globals := telescope.uses knows
    (fun inner => UsesGlobals globals inner decl.ty ∧ UsesGlobals globals inner decl.value)
    ⟨usesTy knows, usesValue knows⟩
  have pis := telescope.closes _ closesU32_pi fun inner => translateTerm inner decl.ty
  have lams := telescope.closes _ closesU32_lam fun inner => translateTerm inner decl.value
  cases kind with
  | defDecl reducibility =>
    refine ⟨?_, uses⟩
    simp only [DeclKind.item, translateItem, translateDecl, Option.map_some, Declaration.asU32,
      ← pis, ← lams]
    rfl
  | theoremDecl =>
    refine ⟨?_, uses⟩
    simp only [DeclKind.item, translateItem, translateDecl, Option.map_some, Declaration.asU32,
      ← pis, ← lams]
    rfl

theorem addDeclToKernelEnv_scoped (elaborator : Elaborator) (decl : Declaration) :
    Scoped (fun next => next.globals = elaborator.globals)
      (elaborator.addDeclToKernelEnv alloc debug decl) := by
  rw [Elaborator.addDeclToKernelEnv]
  split
  · rfl
  next error rejected =>
    cases error with
    | typeMismatch expected actual => exact kernelExprDiagnostic_kind debug _
    | _ => simp [Scoped, Elaborator.addDeclDiagnostic]

theorem exposeOpaqueDefinition_scoped (elaborator : Elaborator)
    (reducibility : DefinitionReducibility) (name : String) :
    Scoped (fun next => next.globals = elaborator.globals)
      (elaborator.exposeOpaqueDefinition reducibility name) := by
  cases reducibility with
  | reducible => rfl
  | opaqueDef =>
    rw [Elaborator.exposeOpaqueDefinition]
    split
    · rfl
    · simp [Scoped, Elaborator.checkedOpaqueNotRetained]

theorem Signs.of_globals {elaborator next : Elaborator}
    (signs : Signs elaborator globals) (same : next.globals = elaborator.globals) :
    Signs next globals where
  names := by rw [same, signs.names]
  explicit := by
    rw [same]
    exact signs.explicit

theorem resolveDecl_signature {decl resolved : MachineDecl}
    (h : resolveDecl table decl = .ok resolved) :
    resolved.name = decl.name ∧ resolved.universeParams = decl.universeParams := by
  obtain ⟨_, _, h⟩ := Result.bind_eq_ok.mp h
  obtain ⟨_, _, h⟩ := Result.bind_eq_ok.mp h
  obtain ⟨_, _, h⟩ := Result.bind_eq_ok.mp h
  obtain ⟨_, _, h⟩ := Result.bind_eq_ok.mp h
  cases h
  exact ⟨rfl, rfl⟩

/-- The signature that the elaborator adds is that of the global. -/
theorem translated_signature {decl : MachineDecl} {kind : Elaborator.DeclKind}
    {elaborated : Declaration}
    (h : (translateItem (DeclKind.item decl kind)).map Declaration.asU32 = some elaborated) :
    (elaborated.name, elaborated.universeParams) = decl.global := by
  cases kind <;> cases h <;> rfl

/-- What the elaboration of items gives. -/
def Translated (globals : Globals) (items : List MachineItem) (decls : List Declaration) : Prop :=
  decls = (items.filterMap translateItem).map Declaration.asU32 ∧ ItemsUseGlobals globals items

theorem Translated.cons {items : List MachineItem} {decls : List Declaration}
    {decl : MachineDecl} {kind : Elaborator.DeclKind} {elaborated : Declaration}
    (translated : (translateItem (DeclKind.item decl kind)).map Declaration.asU32 = some elaborated)
    (uses : decl.UsesGlobals globals) (rest : Translated (globals ++ [decl.global]) items decls) :
    Translated globals (DeclKind.item decl kind :: items) (elaborated :: decls) := by
  obtain ⟨rfl, usesRest⟩ := rest
  cases kind <;> cases translated <;> exact ⟨rfl, uses, usesRest⟩

/-- One declaration, when the rest goes well. -/
theorem elaborate_declared
    {items resolved : List MachineItem} {decl : MachineDecl} (kind : Elaborator.DeclKind)
    (tabulates : Tabulates table globals) (signs : Signs elaborator globals)
    (surface : decl.Surface)
    (h : resolveItems table (DeclKind.item decl kind :: items) = .ok resolved)
    (rest : ∀ {table : GlobalTable} {elaborator : Elaborator} {globals : Globals}
      {resolved : List MachineItem}, Tabulates table globals → Signs elaborator globals →
      resolveItems table items = .ok resolved →
      Scoped (Translated globals items) (elaborator.elaborateItems alloc debug resolved)) :
    Scoped (Translated globals (DeclKind.item decl kind :: items))
      (elaborator.elaborateItems alloc debug resolved) := by
  rw [resolveItems_cons] at h
  obtain ⟨resolvedDecl, hdecl, h⟩ := Result.bind_eq_ok.mp h
  obtain ⟨table', added, h⟩ := Result.bind_eq_ok.mp h
  obtain ⟨others, hothers, h⟩ := Result.bind_eq_ok.mp h
  cases h
  rw [(resolveDecl_signature hdecl).1] at added
  have tabulates' : Tabulates table' (globals ++ [decl.global]) :=
    addGlobalName_tabulates tabulates added
  rw [elaborateItems_cons]
  refine scoped_bind (elaborateDecl_scoped alloc debug (knows_of_signs tabulates signs) surface
    hdecl kind) fun elaborated ⟨translated, uses⟩ => ?_
  refine scoped_bind (addDeclToKernelEnv_scoped alloc debug _ _) fun next same => ?_
  refine scoped_bind (exposeOpaqueDefinition_scoped next _ _) fun last same' => ?_
  have signs' := (signs.of_globals (same'.trans same)).add elaborated.name elaborated.universeParams
  rw [← translated_signature translated] at tabulates'
  refine scoped_bind (rest tabulates' signs' hothers) fun decls translatedRest => ?_
  rw [translated_signature translated] at translatedRest
  exact translatedRest.cons translated uses

/-- The declarations of a module are the translations of its source. -/
theorem elaborate_items (items : List MachineItem)
    {resolved : List MachineItem} (tabulates : Tabulates table globals)
    (signs : Signs elaborator globals) (surface : ∀ item ∈ items, item.Surface)
    (h : resolveItems table items = .ok resolved) :
    Scoped (Translated globals items) (elaborator.elaborateItems alloc debug resolved) := by
  induction items generalizing table elaborator globals resolved with
  | nil =>
    cases h
    exact ⟨rfl, trivial⟩
  | cons item items ih =>
    obtain ⟨here, others⟩ := List.forall_mem_cons.mp surface
    have rest {table : GlobalTable} {elaborator : Elaborator} {globals : Globals}
        {resolved : List MachineItem} (tabulates : Tabulates table globals)
        (signs : Signs elaborator globals) (h : resolveItems table items = .ok resolved) :
        Scoped (Translated globals items) (elaborator.elaborateItems alloc debug resolved) :=
      ih tabulates signs others h
    cases item with
    | importModule name =>
      obtain ⟨resolvedRest, hrest, h⟩ := Result.bind_eq_ok.mp h
      cases h
      rw [Elaborator.elaborateItems]
      exact rest tabulates signs hrest
    | defDecl definition =>
      exact elaborate_declared alloc debug (.defDecl definition.reducibility) tabulates signs here h
        rest
    | theoremDecl decl =>
      exact elaborate_declared alloc debug .theoremDecl tabulates signs here h rest

end Items

end NpaCore.Frontend
