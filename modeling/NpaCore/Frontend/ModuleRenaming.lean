import NpaCore.Frontend.ModuleScoping

/-!
# Renaming in modules

A module with other names for its bound variables, none of them a root of a global name, goes
through both passes like the original one: it has the same imports, the same table of global
names, and at every declaration environments that are the same up to names.

## Main result

`renamed_module`: a renamed module is accepted, with the same declarations up to names.
-/

namespace NpaCore.Frontend

open NpaCore.Expr (relabel)
open NpaCore.Kernel (Declaration forgetNames)

/-! ### Imports and roots -/

section Tables

variable {allowed : String → Prop} {items items' : List MachineItem}

theorem RenamesItem.global {item item' : MachineItem} (renames : RenamesItem allowed item item') :
    item'.declaration.map MachineDecl.name = item.declaration.map MachineDecl.name := by
  cases renames with
  | importModule => rfl
  | defDecl decl_ | theoremDecl decl_ => exact congrArg some decl_.name

/-- Renaming leaves the imports as they are. -/
theorem renamed_addImports (verifiedImports : List VerifiedImport)
    (renames : List.Forall₂ (RenamesItem allowed) items items')
    (seen : List (Wire.Name × Wire.Hash × Option Wire.Hash)) (table : GlobalTable) :
    addImports verifiedImports seen table items' = addImports verifiedImports seen table items := by
  induction renames generalizing seen table with
  | nil => rfl
  | cons first _ ih =>
    cases first with
    | importModule => simp only [addImports, ih]
    | defDecl _ | theoremDecl _ => exact ih seen table

theorem renamed_active (verifiedImports : List VerifiedImport)
    (renames : List.Forall₂ (RenamesItem allowed) items items') (seen : List (List String)) :
    activeVerifiedImports verifiedImports seen items' =
      activeVerifiedImports verifiedImports seen items := by
  induction renames generalizing seen with
  | nil => rfl
  | cons first _ ih =>
    cases first with
    | importModule => simp only [activeVerifiedImports, ih]
    | defDecl _ | theoremDecl _ => exact ih seen

/-- The names of the declarations, which renaming leaves as they are. -/
theorem renamed_names (renames : List.Forall₂ (RenamesItem allowed) items items') :
    (items'.filterMap MachineItem.declaration).map MachineDecl.name =
      (items.filterMap MachineItem.declaration).map MachineDecl.name := by
  rw [List.map_filterMap, List.map_filterMap]
  induction renames with
  | nil => rfl
  | cons first _ ih => rw [List.filterMap_cons, List.filterMap_cons, first.global, ih]

theorem addDeclRoots_eq_names (table : GlobalTable) (items : List MachineItem) :
    addDeclRoots table items =
      ((items.filterMap MachineItem.declaration).map MachineDecl.name).foldl
        GlobalTable.addDeclRoot table := by
  rw [addDeclRoots, List.foldl_map]

theorem addDeclRoots_names (table : GlobalTable) (items : List MachineItem) :
    (addDeclRoots table items).names = table.names := by
  rw [addDeclRoots]
  induction items.filterMap MachineItem.declaration generalizing table with
  | nil => rfl
  | cons decl rest ih => rw [List.foldl_cons, ih, GlobalTable.addDeclRoot]

theorem addDeclRoots_roots (table : GlobalTable) (items : List MachineItem) {root : String} :
    root ∈ (addDeclRoots table items).roots ↔
      (root ∈ (items.filterMap MachineItem.declaration).flatMap fun decl =>
        decl.name.parts.head?.toList) ∨ root ∈ table.roots := by
  rw [addDeclRoots]
  induction items.filterMap MachineItem.declaration generalizing table with
  | nil => simp
  | cons decl rest ih =>
    rw [List.foldl_cons, ih, GlobalTable.addDeclRoot, List.flatMap_cons, List.mem_append,
      List.mem_append]
    tauto

end Tables

/-! ### Declarations -/

section Declarations

variable {left right : Elaborator} (alloc : Kernel.Allocator) (debug : DebugTexts)
  {table : GlobalTable} {allowed : String → Prop}

/-- The declaration of that kind. -/
def DeclKind.declaration (decl : MachineDecl) (ty value : Kernel.Expr) :
    Elaborator.DeclKind → Declaration
  | .defDecl reducibility =>
    .defDecl decl.name.asDotted (decl.universeParams.map MachineUniverseParam.name) [] ty value
      (Elaborator.kernelReducibility reducibility)
  | .theoremDecl =>
    .theoremDecl decl.name.asDotted (decl.universeParams.map MachineUniverseParam.name) [] ty value

theorem elaborateDecl_eq (elaborator : Elaborator) (decl : MachineDecl)
    (kind : Elaborator.DeclKind) :
    elaborator.elaborateDecl alloc debug decl kind = (do
      let universeParams := decl.universeParams.map MachineUniverseParam.name
      let (binders, locals) ←
        elaborator.elaborateBinders alloc debug universeParams .empty decl.binders
      let ty ← elaborator.elaborateTerm alloc debug universeParams locals decl.ty
      let value ← elaborator.elaborateTerm alloc debug universeParams locals decl.value
      .ok (DeclKind.declaration decl (closePi binders ty) (closeLam binders value) kind)) := by
  cases kind <;> rfl

/-- Two declarations of one signature with terms that are the same up to names. -/
inductive SameTerms (decl : MachineDecl) (kind : Elaborator.DeclKind) :
    Declaration → Declaration → Prop
  | intro {ty value ty' value' : Kernel.Expr}
      (types : relabel forgetNames ty = relabel forgetNames ty')
      (values : relabel forgetNames value = relabel forgetNames value') :
      SameTerms decl kind (DeclKind.declaration decl ty value kind)
        (DeclKind.declaration decl ty' value' kind)

theorem renamed_decl (side : SideBySide left right)
    (rootless : ∀ name, allowed name → table.hasRoot name = false)
    {decl decl' resolved : MachineDecl} {kind : Elaborator.DeclKind} {elaborated : Declaration}
    (renames : RenamesDecl allowed decl decl') (resolves : resolveDecl table decl = .ok resolved)
    (elaborates : left.elaborateDecl alloc debug resolved kind = .ok elaborated) :
    ∃ resolved' elaborated', resolveDecl table decl' = .ok resolved' ∧
      right.elaborateDecl alloc debug resolved' kind = .ok elaborated' ∧
      SameTerms decl kind elaborated elaborated' := by
  obtain ⟨name, universeParams, inner, inner', binders_, ty_, value_⟩ := renames
  obtain ⟨_, params, resolves⟩ := Result.bind_eq_ok.mp resolves
  obtain ⟨⟨binders, locals⟩, hbinders, resolves⟩ := Result.bind_eq_ok.mp resolves
  obtain ⟨ty, hty, resolves⟩ := Result.bind_eq_ok.mp resolves
  obtain ⟨value, hvalue, resolves⟩ := Result.bind_eq_ok.mp resolves
  cases resolves
  rw [elaborateDecl_eq] at elaborates
  obtain ⟨⟨ebinders, context⟩, ehbinders, elaborates⟩ := Result.bind_eq_ok.mp elaborates
  obtain ⟨ety, ehty, elaborates⟩ := Result.bind_eq_ok.mp elaborates
  obtain ⟨evalue, ehvalue, elaborates⟩ := Result.bind_eq_ok.mp elaborates
  cases elaborates
  have start : SameContexts ⟨[]⟩ ⟨[]⟩ .empty .empty := ⟨rfl, rfl, rfl⟩
  obtain ⟨rbinders, nested', ebinders', context', hbinders', ehbinders', rfl, rfl, same, types⟩ :=
    renamed_binders alloc debug _ side rootless decl.binders start binders_ hbinders ehbinders
  obtain ⟨rty, ety', hty', ehty', sameTy⟩ :=
    renamed_term alloc debug _ side rootless decl.ty same ty_ hty ehty
  obtain ⟨rvalue, evalue', hvalue', ehvalue', sameValue⟩ :=
    renamed_term alloc debug _ side rootless decl.value same value_ hvalue ehvalue
  refine ⟨⟨decl.name, decl.universeParams, rbinders, rty, rvalue⟩, _, ?_, ?_,
    .intro (types.closePi sameTy) (types.closeLam sameValue)⟩
  · simp only [resolveDecl, name, universeParams, params, hbinders', hty', hvalue', Result.ok_bind]
  · simp only [elaborateDecl_eq, ehbinders', ehty', ehvalue', Result.ok_bind]
    cases kind <;> rfl

namespace SameTerms

variable {decl : MachineDecl} {kind : Elaborator.DeclKind} {elaborated elaborated' : Declaration}
  (same : SameTerms decl kind elaborated elaborated')
include same

theorem sameUpToNames : elaborated.SameUpToNames elaborated' := by
  obtain ⟨types, values⟩ := same
  cases kind with
  | defDecl reducibility =>
    simp only [Declaration.SameUpToNames, DeclKind.declaration, Declaration.relabel, types, values]
  | theoremDecl =>
    simp only [Declaration.SameUpToNames, DeclKind.declaration, Declaration.relabel, types, values]

theorem name_eq : elaborated'.name = elaborated.name := by
  obtain ⟨types, values⟩ := same
  cases kind <;> rfl

theorem universeParams_eq : elaborated'.universeParams = elaborated.universeParams := by
  obtain ⟨types, values⟩ := same
  cases kind <;> rfl

theorem addDecl (side : SideBySide left right) {next : Elaborator}
    (h : left.addDeclToKernelEnv alloc debug elaborated = .ok next) :
    ∃ next', right.addDeclToKernelEnv alloc debug elaborated' = .ok next' ∧
      SideBySide next next' := by
  have added : Result.Matches (fun env env' => env.relabel forgetNames = env'.relabel forgetNames)
      (left.kernelEnv.addDecl alloc elaborated) (right.kernelEnv.addDecl alloc elaborated') := by
    obtain ⟨types, values⟩ := same
    cases kind with
    | defDecl reducibility =>
      exact Kernel.addDef_names alloc alloc side.kernelEnv _ _ _ types values _
    | theoremDecl => exact Kernel.addTheorem_names alloc alloc side.kernelEnv _ _ _ types values
  rw [Elaborator.addDeclToKernelEnv] at h
  split at h
  next env accepted =>
    cases h
    obtain ⟨env', accepted', sameEnv⟩ := added.of_left accepted
    refine ⟨{ right with kernelEnv := env' }, ?_, side.globals, side.explicit, sameEnv⟩
    simp only [Elaborator.addDeclToKernelEnv, accepted']
  next => cases h

end SameTerms

theorem SideBySide.expose (side : SideBySide left right) {reducibility : DefinitionReducibility}
    {name : String} {next : Elaborator}
    (h : left.exposeOpaqueDefinition reducibility name = .ok next) :
    ∃ next', right.exposeOpaqueDefinition reducibility name = .ok next' ∧
      SideBySide next next' := by
  cases reducibility with
  | reducible =>
    cases h
    exact ⟨right, rfl, side⟩
  | opaqueDef =>
    rw [Elaborator.exposeOpaqueDefinition] at h
    split at h
    next env exposed =>
      cases h
      have here := Kernel.exposeCheckedOpaqueDefinition_relabel forgetNames left.kernelEnv name
      have there := Kernel.exposeCheckedOpaqueDefinition_relabel forgetNames right.kernelEnv name
      rw [side.kernelEnv, there, exposed] at here
      obtain ⟨outcome, sameEnv⟩ := Prod.mk.inj here
      refine ⟨{ right with
        kernelEnv := (Kernel.EnvMut.exposeCheckedOpaqueDefinition name right.kernelEnv).2 }, ?_,
        side.globals, side.explicit, sameEnv.symm⟩
      rw [Elaborator.exposeOpaqueDefinition]
      rw [show Kernel.EnvMut.exposeCheckedOpaqueDefinition name right.kernelEnv =
        (.ok true, (Kernel.EnvMut.exposeCheckedOpaqueDefinition name right.kernelEnv).2) from
          Prod.ext outcome rfl]
    next => cases h

theorem SideBySide.addSignature (side : SideBySide left right) {elaborated elaborated' : Declaration}
    (name : elaborated'.name = elaborated.name)
    (universeParams : elaborated'.universeParams = elaborated.universeParams) :
    SideBySide (left.addDeclSignature elaborated) (right.addDeclSignature elaborated') where
  globals := by
    simp only [Elaborator.addDeclSignature, Elaborator.addGlobalSignature, name, universeParams,
      side.globals]
  explicit other := by
    have before := side.explicit other
    simp only [Elaborator.implicitProfile] at before
    simp only [Elaborator.implicitProfile, Elaborator.addDeclSignature,
      Elaborator.addGlobalSignature, List.lookup_cons]
    cases other == elaborated.name with
    | true => rfl
    | false => exact before
  kernelEnv := side.kernelEnv

/-! ### Items -/

/-- A declaration brings no root that `addDeclRoots` has not brought before. -/
theorem addLocalDecl_rootless {table table' : GlobalTable} {name : MachineName}
    (h : table.addLocalDecl name = .ok table')
    (rootless : ∀ root, allowed root → table.hasRoot root = false)
    (known : ∀ root ∈ name.parts.head?.toList, ¬ allowed root) :
    ∀ root, allowed root → table'.hasRoot root = false := by
  intro root fresh
  have before := rootless root fresh
  rw [GlobalTable.hasRoot, Bool.eq_false_iff, ne_eq, List.contains_iff_mem] at before ⊢
  rw [addGlobalName_roots h, List.mem_append]
  rintro (here | there)
  · exact known root here fresh
  · exact before there

/-- What a renamed list of items gives: it is resolved and elaborated to declarations that are
    the same up to names. -/
def RenamedWith (right : Elaborator) (table : GlobalTable) (items : List MachineItem)
    (decls : List Declaration) : Prop :=
  ∃ resolved decls', resolveItems table items = .ok resolved ∧
    right.elaborateItems alloc debug resolved = .ok decls' ∧
    List.Forall₂ Declaration.SameUpToNames decls decls'

/-- One declaration, when the rest goes well. -/
theorem renamed_declared (side : SideBySide left right)
    (rootless : ∀ name, allowed name → table.hasRoot name = false)
    {decl decl' : MachineDecl} (kind : Elaborator.DeclKind) {items items' resolved : List MachineItem}
    {decls : List Declaration} (renames : RenamesDecl allowed decl decl')
    (known : ∀ root ∈ decl.name.parts.head?.toList, ¬ allowed root)
    (resolves : resolveItems table (DeclKind.item decl kind :: items) = .ok resolved)
    (elaborates : left.elaborateItems alloc debug resolved = .ok decls)
    (rest : ∀ {left right : Elaborator} {table : GlobalTable} {resolved : List MachineItem}
      {decls : List Declaration}, SideBySide left right →
      (∀ name, allowed name → table.hasRoot name = false) →
      resolveItems table items = .ok resolved →
      left.elaborateItems alloc debug resolved = .ok decls →
      RenamedWith alloc debug right table items' decls) :
    RenamedWith alloc debug right table (DeclKind.item decl' kind :: items') decls := by
  rw [resolveItems_cons] at resolves
  obtain ⟨resolvedDecl, hdecl, resolves⟩ := Result.bind_eq_ok.mp resolves
  obtain ⟨table', added, resolves⟩ := Result.bind_eq_ok.mp resolves
  obtain ⟨others, hothers, resolves⟩ := Result.bind_eq_ok.mp resolves
  cases resolves
  rw [elaborateItems_cons] at elaborates
  obtain ⟨elaborated, edecl, elaborates⟩ := Result.bind_eq_ok.mp elaborates
  obtain ⟨next, accepted, elaborates⟩ := Result.bind_eq_ok.mp elaborates
  obtain ⟨last, exposed, elaborates⟩ := Result.bind_eq_ok.mp elaborates
  obtain ⟨edecls, ehothers, elaborates⟩ := Result.bind_eq_ok.mp elaborates
  cases elaborates
  obtain ⟨resolvedDecl', elaborated', hdecl', edecl', same⟩ :=
    renamed_decl alloc debug side rootless renames hdecl edecl
  obtain ⟨next', accepted', sideNext⟩ := same.addDecl alloc debug side accepted
  obtain ⟨last', exposed', sideLast⟩ := sideNext.expose exposed
  rw [← same.name_eq] at exposed'
  -- the table gets the same name
  rw [(resolveDecl_signature hdecl).1] at added
  have added' : table.addLocalDecl resolvedDecl'.name = .ok table' := by
    rw [(resolveDecl_signature hdecl').1, renames.name, added]
  have sideRest := sideLast.addSignature same.name_eq same.universeParams_eq
  obtain ⟨others', edecls', hothers', ehothers', sames⟩ :=
    rest sideRest (addLocalDecl_rootless added rootless known) hothers ehothers
  refine ⟨DeclKind.item resolvedDecl' kind :: others', elaborated' :: edecls', ?_, ?_,
    List.Forall₂.cons same.sameUpToNames sames⟩
  · rw [resolveItems_cons]
    simp only [hdecl', added', hothers', Result.ok_bind]
  · rw [elaborateItems_cons]
    simp only [edecl', accepted', exposed', ehothers', Result.ok_bind]

/-- A renamed list of items is accepted, with the same declarations up to names. -/
theorem renamed_items {items items' : List MachineItem}
    (renames : List.Forall₂ (RenamesItem allowed) items items')
    (known : ∀ decl ∈ items.filterMap MachineItem.declaration,
      ∀ root ∈ decl.name.parts.head?.toList, ¬ allowed root)
    {resolved : List MachineItem} {decls : List Declaration} (side : SideBySide left right)
    (rootless : ∀ name, allowed name → table.hasRoot name = false)
    (resolves : resolveItems table items = .ok resolved)
    (elaborates : left.elaborateItems alloc debug resolved = .ok decls) :
    RenamedWith alloc debug right table items' decls := by
  induction renames generalizing left right table resolved decls with
  | nil =>
    cases resolves
    cases elaborates
    exact ⟨[], [], rfl, rfl, .nil⟩
  | @cons item item' items items' first _ ih =>
    cases first with
    | @importModule module =>
      obtain ⟨others, hothers, resolves⟩ := Result.bind_eq_ok.mp resolves
      cases resolves
      obtain ⟨others', decls', hothers', elaborates', sames⟩ :=
        ih known side rootless hothers elaborates
      refine ⟨.importModule module :: others', decls', ?_, elaborates', sames⟩
      simp only [resolveItems, hothers', Result.ok_bind]
    | @defDecl decl decl' reducibility decl_ =>
      obtain ⟨here, there⟩ := List.forall_mem_cons.mp known
      exact renamed_declared alloc debug side rootless (.defDecl reducibility) decl_ here resolves
        elaborates (ih there)
    | @theoremDecl decl decl' decl_ =>
      obtain ⟨here, there⟩ := List.forall_mem_cons.mp known
      exact renamed_declared alloc debug side rootless .theoremDecl decl_ here resolves
        elaborates (ih there)

end Declarations

/-! ### Modules -/

/-- Resolution leaves the imports as they are. -/
theorem resolveItems_active (verifiedImports : List VerifiedImport) {items resolved : List MachineItem}
    {table : GlobalTable} (h : resolveItems table items = .ok resolved) (seen : List (List String)) :
    activeVerifiedImports verifiedImports seen resolved =
      activeVerifiedImports verifiedImports seen items := by
  induction items generalizing table resolved seen with
  | nil =>
    cases h
    rfl
  | cons item items ih =>
    cases item with
    | importModule module =>
      obtain ⟨rest, hrest, h⟩ := Result.bind_eq_ok.mp h
      cases h
      simp only [activeVerifiedImports, ih hrest]
    | defDecl _ | theoremDecl _ =>
      obtain ⟨_, _, h⟩ := Result.bind_eq_ok.mp h
      obtain ⟨_, _, h⟩ := Result.bind_eq_ok.mp h
      obtain ⟨rest, hrest, h⟩ := Result.bind_eq_ok.mp h
      cases h
      exact ih hrest seen

/-- What resolution of a module leaves: the active imports, and a table of their exports with the
    roots of all declarations. -/
theorem resolveMachineModule_eq_ok {module : MachineModule} {verifiedImports : List VerifiedImport}
    {resolved : ResolvedMachineModule}
    (h : resolveMachineModule module verifiedImports = .ok resolved) :
    ∃ table imports, addImports verifiedImports [] .empty module.items = .ok table ∧
      resolveItems (addDeclRoots table module.items) module.items = .ok resolved.module.items ∧
      activeVerifiedImports verifiedImports [] module.items = .ok imports ∧
      Tabulates (addDeclRoots table module.items) (exportedGlobals imports) ∧
      ∀ root, root ∈ (addDeclRoots table module.items).roots ↔
        root ∈ globalRoots imports module := by
  obtain ⟨table, tabled, h⟩ := Result.bind_eq_ok.mp h
  obtain ⟨items, hitems, h⟩ := Result.bind_eq_ok.mp h
  cases h
  have start : SameSeen verifiedImports [] [] := fun _ _ _ => by simp
  obtain ⟨imports, active, tabulates, roots⟩ := addImports_active start tabulates_empty tabled
  refine ⟨table, imports, tabled, hitems, active, ?_, fun root => ?_⟩
  · intro dotted
    rw [addDeclRoots_names]
    exact tabulates dotted
  · rw [addDeclRoots_roots, roots, globalRoots, List.mem_append]
    simp only [GlobalTable.empty, List.not_mem_nil, or_false]
    exact Or.comm

theorem renamed_module
    (kernelEnvFromImports : List VerifiedImport → List VerifiedImport → MachineResult Kernel.Env)
    (alloc : Kernel.Allocator) (debug : DebugTexts) (moduleName : Wire.Name)
    {module module' : MachineModule} {verifiedImports imports : List VerifiedImport}
    (active : activeVerifiedImports verifiedImports [] module.items = .ok imports)
    (renames : RenamesModule (fun name => name ∉ globalRoots imports module) module module')
    {resolved : ResolvedMachineModule} {core : CoreModule}
    (resolves : resolveMachineModule module verifiedImports = .ok resolved)
    (elaborates : elaborateMachineModule kernelEnvFromImports alloc debug moduleName resolved
      verifiedImports = .ok core) :
    ∃ resolved' core', resolveMachineModule module' verifiedImports = .ok resolved' ∧
      elaborateMachineModule kernelEnvFromImports alloc debug moduleName resolved'
        verifiedImports = .ok core' ∧
      core'.name = core.name ∧
      List.Forall₂ Declaration.SameUpToNames core.declarations core'.declarations := by
  obtain ⟨table, imports', tabled, hitems, active', tabulates, roots⟩ :=
    resolveMachineModule_eq_ok resolves
  obtain rfl : imports' = imports := Except.ok.inj (active'.symm.trans active)
  obtain ⟨_, active'', elaborates⟩ := Result.bind_eq_ok.mp elaborates
  obtain ⟨env, loaded, elaborates⟩ := Result.bind_eq_ok.mp elaborates
  obtain ⟨decls, hdecls, elaborates⟩ := Result.bind_eq_ok.mp elaborates
  cases elaborates
  rw [resolveItems_active verifiedImports hitems, active] at active''
  cases active''
  -- both elaborators start with the same signatures and the same environment
  have side : SideBySide (Elaborator.new imports' env) (Elaborator.new imports' env) :=
    ⟨rfl, (signs_new imports' env).implicitProfile, rfl⟩
  have rootless : ∀ name, name ∉ globalRoots imports' module →
      (addDeclRoots table module.items).hasRoot name = false := by
    intro name fresh
    rw [GlobalTable.hasRoot, Bool.eq_false_iff, ne_eq, List.contains_iff_mem, roots]
    exact fresh
  have known : ∀ decl ∈ module.items.filterMap MachineItem.declaration,
      ∀ root ∈ decl.name.parts.head?.toList, ¬ root ∉ globalRoots imports' module := by
    intro decl mem root here
    exact not_not.mpr (List.mem_append_right _ (List.mem_flatMap.mpr ⟨decl, mem, here⟩))
  obtain ⟨items', decls', hitems', hdecls', sames⟩ :=
    renamed_items alloc debug renames known side rootless hitems hdecls
  refine ⟨⟨⟨items'⟩⟩, ⟨moduleName, decls'⟩, ?_, ?_, rfl, sames⟩
  · have sameRoots : addDeclRoots table module'.items = addDeclRoots table module.items := by
      rw [addDeclRoots_eq_names, addDeclRoots_eq_names, renamed_names renames]
    rw [resolveMachineModule, renamed_addImports verifiedImports renames]
    simp only [tabled, sameRoots, hitems', Result.ok_bind]
  · have activeItems : activeVerifiedImports verifiedImports [] items' = .ok imports' := by
      rw [resolveItems_active verifiedImports hitems', renamed_active verifiedImports renames,
        active]
    simp only [elaborateMachineModule, activeItems, loaded, hdecls', Result.ok_bind]

end NpaCore.Frontend
