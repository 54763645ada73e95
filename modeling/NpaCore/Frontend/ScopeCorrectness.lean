import NpaCore.Frontend.ModuleRenaming

/-!
# Scope correctness of resolution and elaboration

The two passes together, for the modules that the parser accepts. The declarations of a core
module depend on the declarations of the source only, and on these as the translation says.

## Main result

`scope_correct`: accepted declarations are the translations of their source, with names that
denote one global each; they do not depend on the names of bound variables, on the imports or
on later declarations.
-/

namespace NpaCore.Frontend

open NpaCore.Kernel (Declaration)

/-- The items that are not imports. -/
def MachineModule.declaredItems (module : MachineModule) : List MachineItem :=
  module.items.filter fun item => !item.isImport

/-- The declarations of a source, in order. -/
def MachineModule.translate (module : MachineModule) : List Declaration :=
  module.items.filterMap translateItem

theorem translate_eq_declaredItems (module : MachineModule) :
    module.translate = module.declaredItems.filterMap translateItem := by
  rw [MachineModule.translate, MachineModule.declaredItems, List.filterMap_filter]
  refine List.filterMap_congr fun item _ => ?_
  cases item <;> rfl

section Passes

variable (kernelEnvFromImports : List VerifiedImport → List VerifiedImport →
    MachineResult Kernel.Env)
  (alloc : Kernel.Allocator) (debug : DebugTexts) (moduleName : Wire.Name)

/-- Both passes on a module whose terms come from the parser. -/
theorem elaborate_module {module : MachineModule} {verifiedImports : List VerifiedImport}
    {resolved : ResolvedMachineModule} (surface : module.Surface)
    (resolves : resolveMachineModule module verifiedImports = .ok resolved) :
    ∃ imports, activeVerifiedImports verifiedImports [] module.items = .ok imports ∧
      ∀ env, kernelEnvFromImports imports verifiedImports = .ok env →
        Scoped (fun core : CoreModule => Translated (exportedGlobals imports) module.items
            core.declarations)
          (elaborateMachineModule kernelEnvFromImports alloc debug moduleName resolved
            verifiedImports) := by
  obtain ⟨table, imports, _, hitems, active, tabulates, _⟩ := resolveMachineModule_eq_ok resolves
  refine ⟨imports, active, fun env loaded => ?_⟩
  have active' : activeVerifiedImports verifiedImports [] resolved.module.items = .ok imports := by
    rw [resolveItems_active verifiedImports hitems, active]
  simp only [elaborateMachineModule, active', loaded, Result.ok_bind]
  refine scoped_bind (elaborate_items alloc debug module.items tabulates (signs_new imports env)
    surface hitems) fun decls translated => ?_
  exact translated

theorem translated_of_accepted {module : MachineModule} {verifiedImports : List VerifiedImport}
    {resolved : ResolvedMachineModule} {core : CoreModule} (surface : module.Surface)
    (resolves : resolveMachineModule module verifiedImports = .ok resolved)
    (elaborates : elaborateMachineModule kernelEnvFromImports alloc debug moduleName resolved
      verifiedImports = .ok core) :
    ∃ imports, activeVerifiedImports verifiedImports [] module.items = .ok imports ∧
      core.declarations = module.translate.map Declaration.asU32 ∧
      ItemsUseGlobals (exportedGlobals imports) module.items := by
  obtain ⟨imports, active, passes⟩ := elaborate_module kernelEnvFromImports alloc debug moduleName
    surface resolves
  refine ⟨imports, active, ?_⟩
  obtain ⟨_, active', rest⟩ := Result.bind_eq_ok.mp elaborates
  obtain ⟨env, loaded, _⟩ := Result.bind_eq_ok.mp rest
  obtain ⟨_, _, _, hitems, _, _, _⟩ := resolveMachineModule_eq_ok resolves
  rw [resolveItems_active verifiedImports hitems, active] at active'
  cases active'
  exact (passes env loaded).of_ok elaborates

/-- Resolution and elaboration are correct about scopes. -/
theorem scope_correct {source : String} {module : MachineModule}
    {verifiedImports : List VerifiedImport} {resolved : ResolvedMachineModule}
    (parsed : parseMachineModule source = .ok module)
    (resolves : resolveMachineModule module verifiedImports = .ok resolved) :
    -- a resolved term has no unknown local names
    (∀ (table : GlobalTable) (universeParams delta : List String) (elaborator : Elaborator)
        (locals : LocalScope) (context : LocalContext) (term resolvedTerm : MachineTerm),
      term.Spelled anySpelling → context.scope = locals.scope →
      resolveTerm table universeParams locals term = .ok resolvedTerm → ∀ diagnostic,
      elaborator.elaborateTerm alloc debug delta context resolvedTerm = .error diagnostic →
        diagnostic.kind ≠ .unknownLocalName) ∧
    (∀ diagnostic, elaborateMachineModule kernelEnvFromImports alloc debug moduleName resolved
        verifiedImports = .error diagnostic → diagnostic.kind = .unknownLocalName →
      ∃ imports, activeVerifiedImports verifiedImports [] module.items = .ok imports ∧
        kernelEnvFromImports imports verifiedImports = .error diagnostic) ∧
    ∀ core, elaborateMachineModule kernelEnvFromImports alloc debug moduleName resolved
        verifiedImports = .ok core →
      ∃ imports, activeVerifiedImports verifiedImports [] module.items = .ok imports ∧
        -- the declarations are the translations, with positions as `u32`
        core.declarations = module.translate.map Declaration.asU32 ∧
        ((∀ decl ∈ module.translate, decl.FitsU32) → core.declarations = module.translate) ∧
        ItemsUseGlobals (exportedGlobals imports) module.items ∧
        -- with other names for the bound variables
        (∀ module', RenamesModule (fun name => name ∉ globalRoots imports module) module module' →
          ∃ resolved' core', resolveMachineModule module' verifiedImports = .ok resolved' ∧
            elaborateMachineModule kernelEnvFromImports alloc debug moduleName resolved'
              verifiedImports = .ok core' ∧
            List.Forall₂ Declaration.SameUpToNames core.declarations core'.declarations) ∧
        -- with other imports and with further declarations
        ∀ otherSource other otherImports otherResolved otherCore further,
          parseMachineModule otherSource = .ok other →
          other.declaredItems = module.declaredItems ++ further →
          resolveMachineModule other otherImports = .ok otherResolved →
          elaborateMachineModule kernelEnvFromImports alloc debug moduleName otherResolved
            otherImports = .ok otherCore →
          core.declarations <+: otherCore.declarations := by
  have surface := parseMachineModule_surface parsed
  refine ⟨?_, ?_, ?_⟩
  · intro table universeParams delta elaborator locals context term resolvedTerm spelled names ok
      diagnostic failed
    have passes : Scoped (fun elaborated => elaborated = (translateTerm locals.scope term).asU32 ∧
          (Knows table elaborator [] → UsesGlobals [] locals.scope term))
        (elaborator.elaborateTerm alloc debug delta context resolvedTerm) :=
      elaborate_resolved alloc debug delta term spelled names ok
    exact passes.of_error failed
  · intro diagnostic failed kind
    obtain ⟨imports, active, passes⟩ := elaborate_module kernelEnvFromImports alloc debug moduleName
      surface resolves
    refine ⟨imports, active, ?_⟩
    cases loaded : kernelEnvFromImports imports verifiedImports with
    | ok env => exact absurd kind ((passes env loaded).of_error failed)
    | error other =>
      obtain ⟨_, _, _, hitems, _, _, _⟩ := resolveMachineModule_eq_ok resolves
      have active' : activeVerifiedImports verifiedImports [] resolved.module.items =
          .ok imports := by
        rw [resolveItems_active verifiedImports hitems, active]
      simp only [elaborateMachineModule, active', loaded, Result.ok_bind, Result.error_bind] at failed
      cases failed
      rfl
  · intro core elaborates
    obtain ⟨imports, active, same, uses⟩ := translated_of_accepted kernelEnvFromImports alloc debug
      moduleName surface resolves elaborates
    refine ⟨imports, active, same, fun fits => ?_, uses, fun module' renames => ?_, ?_⟩
    · rw [same, List.map_congr_left fun decl mem => Declaration.asU32_of_fits (fits decl mem),
        List.map_id']
    · obtain ⟨resolved', core', resolves', elaborates', _, sames⟩ :=
        renamed_module kernelEnvFromImports alloc debug moduleName active renames resolves
          elaborates
      exact ⟨resolved', core', resolves', elaborates', sames⟩
    · intro otherSource other otherImports otherResolved otherCore further otherParsed extended
        otherResolves otherElaborates
      obtain ⟨_, _, otherSame, _⟩ := translated_of_accepted kernelEnvFromImports alloc debug
        moduleName (parseMachineModule_surface otherParsed) otherResolves otherElaborates
      rw [same, otherSame, translate_eq_declaredItems, translate_eq_declaredItems, extended,
        List.filterMap_append, List.map_append]
      exact List.prefix_append _ _

end Passes

/-! ### Two binders of one name -/

/-- `def f (first : Prop) (second : Prop) : Prop := second`. -/
def twoBinders (first second : String) : MachineModule :=
  ⟨[.defDecl ⟨⟨⟨["f"]⟩, [], [.mk first .prop, .mk second .prop], .prop,
    .ident ⟨[second]⟩ none false⟩, .reducible⟩]⟩

def resolvedTwoBinders (first second : String) : ResolvedMachineModule :=
  ⟨⟨[.defDecl ⟨⟨⟨["f"]⟩, [], [.mk first .prop, .mk second .prop], .prop, .local second⟩,
    .reducible⟩]⟩⟩

def translatedTwoBinders (first second : String) : Declaration :=
  .defDecl "f" [] [] (.pi first (.sort .zero) (.pi second (.sort .zero) (.sort .zero)))
    (.lam first (.sort .zero) (.lam second (.sort .zero) (.bvar 0))) .reducible

def noTexts : DebugTexts := ⟨fun _ => "", fun _ => ""⟩

theorem parse_twoBinders :
    parseMachineModule "def f (x : Prop) (x : Prop) : Prop := x" = .ok (twoBinders "x" "x") := by
  have tokens : lex "def f (x : Prop) (x : Prop) : Prop := x" = .ok [.keyword .defKw, .ident "f",
      .lparen, .ident "x", .colon, .keyword .propKw, .rparen, .lparen, .ident "x", .colon,
      .keyword .propKw, .rparen, .colon, .keyword .propKw, .colonEq, .ident "x", .eof] :=
    Result.ok_of_toOption (by decide +kernel)
  rw [parseMachineModule, tokens]
  rfl

theorem rename_twoBinders :
    RenamesModule (fun name => name ∉ globalRoots [] (twoBinders "x" "x")) (twoBinders "x" "x")
      (twoBinders "y" "z") := by
  have body : Renames (fun name => name ∉ globalRoots [] (twoBinders "x" "x")) ["x", "x"]
      ["z", "y"] (.ident ⟨["x"]⟩ none false) (.ident ⟨["z"]⟩ none false) :=
    .bound (rfl : _ = some 0) rfl
  exact .cons (.defDecl ⟨rfl, rfl, _, _, .cons (by decide) .prop (.cons (by decide) .prop .nil),
    .prop, body⟩) .nil

/-- An occurrence of a repeated name is the innermost binder, also after both are renamed. -/
theorem scope_correct_twoBinders :
    ∃ imports, activeVerifiedImports [] [] (twoBinders "x" "x").items = .ok imports ∧
      (twoBinders "x" "x").translate.map Declaration.asU32 = [translatedTwoBinders "x" "x"] ∧
      ItemsUseGlobals (exportedGlobals imports) (twoBinders "x" "x").items ∧
      ∃ resolved' core', resolveMachineModule (twoBinders "y" "z") [] = .ok resolved' ∧
        elaborateMachineModule (fun _ _ => .ok .new) Kernel.noReuse noTexts ⟨["M"]⟩ resolved' [] =
          .ok core' ∧
        List.Forall₂ Declaration.SameUpToNames [translatedTwoBinders "x" "x"]
          core'.declarations := by
  have resolves : resolveMachineModule (twoBinders "x" "x") [] =
      .ok (resolvedTwoBinders "x" "x") := rfl
  have elaborates : elaborateMachineModule (fun _ _ => .ok .new) Kernel.noReuse noTexts ⟨["M"]⟩
      (resolvedTwoBinders "x" "x") [] = .ok ⟨⟨["M"]⟩, [translatedTwoBinders "x" "x"]⟩ :=
    Result.ok_of_toOption (by decide +kernel)
  obtain ⟨imports, active, same, _, uses, renamed, _⟩ := (scope_correct (fun _ _ => .ok .new)
    Kernel.noReuse noTexts ⟨["M"]⟩ parse_twoBinders resolves).2.2 _ elaborates
  cases active
  exact ⟨[], rfl, same.symm, uses, renamed _ rename_twoBinders⟩

end NpaCore.Frontend
