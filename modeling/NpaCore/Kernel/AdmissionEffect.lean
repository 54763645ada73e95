import NpaCore.Kernel.Admission

/-!
# What admission adds

A successful `add_*` call inserts the entries of its declaration and nothing
else, under names that are different from each other and were free before.
-/

namespace NpaCore.Kernel

/-! ### The entries of a declaration -/

def inductiveEntry (data : InductiveDecl) : String × Decl :=
  (data.name, .inductiveDecl data.name data.universeParams (inductiveType data) data)

def constructorEntries (data : InductiveDecl) : List (String × Decl) :=
  data.constructors.map fun constructor =>
    (constructor.name,
      .constructorDecl constructor.name data.universeParams constructor.ty data.name)

def recursorEntries (generated : RecursorRules) (data : InductiveDecl) : List (String × Decl) :=
  data.recursor.toList.map fun recursor =>
    (recursor.name, .recursorDecl recursor.name recursor.universeParams recursor.ty data.name
      (recursor.rules.getD generated))

def inductiveEntries (data : InductiveDecl) : List (String × Decl) :=
  [inductiveEntry data] ++ constructorEntries data ++
    recursorEntries (generatedRecursorRules data) data

def mutualEntries (block : MutualInductiveBlock) : List (String × Decl) :=
  block.inductives.map inductiveEntry ++ block.inductives.flatMap constructorEntries ++
    block.inductives.flatMap fun data =>
      recursorEntries (generatedMutualRecursorRules block data) data

/-! ### Inserting entries -/

/-- The entries inserted one after another. -/
def Env.insertAll (env : Env) (entries : List (String × Decl)) : Env :=
  entries.foldl (fun env entry => env.insertDecl entry.1 entry.2) env

theorem Env.insertAll_append (env : Env) (xs ys : List (String × Decl)) :
    env.insertAll (xs ++ ys) = (env.insertAll xs).insertAll ys := List.foldl_append

variable {name : String} {entries : List (String × Decl)}

theorem Env.decl_insertAll_of_not_mem {env : Env}
    (absent : name ∉ entries.map Prod.fst) : (env.insertAll entries).decl name = env.decl name := by
  induction entries generalizing env with
  | nil => rfl
  | cons entry entries ih =>
    simp only [List.map_cons, List.mem_cons, not_or] at absent
    rw [Env.insertAll, List.foldl_cons]
    exact (ih absent.2).trans (by rw [Env.decl_insertDecl, if_neg absent.1])

theorem Env.decl_insertAll_of_mem {env : Env} (nodup : (entries.map Prod.fst).Nodup) {decl : Decl}
    (mem : (name, decl) ∈ entries) : (env.insertAll entries).decl name = some decl := by
  induction entries generalizing env with
  | nil => cases mem
  | cons entry entries ih =>
    simp only [List.map_cons, List.nodup_cons] at nodup
    rw [Env.insertAll, List.foldl_cons]
    rcases List.mem_cons.mp mem with rfl | mem
    · -- the later entries have other names
      exact (decl_insertAll_of_not_mem nodup.1).trans (by simp)
    · exact ih nodup.2 mem

theorem ensureNamesFresh_spec {env : Env} {names seen : List String}
    (h : env.ensureNamesFresh seen names = .ok ()) :
    names.Nodup ∧ ∀ name ∈ names, name ∉ seen ∧ env.decl name = none := by
  induction names generalizing seen with
  | nil => simp
  | cons first rest ih =>
    simp only [Env.ensureNamesFresh, Env.ensureFresh, Result.bind_eq_ok, Result.ensure_eq_ok] at h
    obtain ⟨_, notSeen, _, ⟨_, _, fresh⟩, hrest⟩ := h
    obtain ⟨nodup, others⟩ := ih hrest
    refine ⟨List.nodup_cons.mpr ⟨fun mem => (others first mem).1 (by simp), nodup⟩, ?_⟩
    intro name hname
    rcases List.mem_cons.mp hname with rfl | hname
    · exact ⟨by simpa using notSeen, by simpa using fresh⟩
    · exact ⟨fun mem => (others name hname).1 (List.mem_cons_of_mem _ mem), (others name hname).2⟩

theorem ensureFresh_spec {env : Env} {u : Unit}
    (h : env.ensureFresh name = .ok u) : env.decl name = none := by
  simp only [Env.ensureFresh, Result.bind_eq_ok, Result.ensure_eq_ok] at h
  obtain ⟨_, _, fresh⟩ := h
  simpa using fresh

/-! ### The calls -/

/-- The new environment has the entries on top of the old one, under fresh names. `reserved`
    are further names that had to be fresh. -/
structure Adds (env : Env) (reserved : List String) (entries : List (String × Decl))
    (next : Env) : Prop where
  decls : next.decls = (env.insertAll entries).decls
  nodup : (reserved ++ entries.map Prod.fst).Nodup
  fresh : ∀ name ∈ reserved ++ entries.map Prod.fst, env.decl name = none

theorem Adds.of_insert {env : Env} (decl : Decl) (fresh : env.decl name = none) :
    Adds env [] [(name, decl)] (env.insertDecl name decl) :=
  ⟨rfl, by simp, by simpa using fresh⟩

theorem Adds.decl_of_mem {env next : Env} {reserved : List String}
    (adds : Adds env reserved entries next) {decl : Decl}
    (mem : (name, decl) ∈ entries) : next.decl name = some decl := by
  have lookup : next.decl name = (env.insertAll entries).decl name := by
    rw [Env.decl, adds.decls, Env.decl]
  rw [lookup]
  exact Env.decl_insertAll_of_mem (List.nodup_append.mp adds.nodup).2.1 mem

theorem Adds.decl_of_not_mem {env next : Env} {reserved : List String}
    (adds : Adds env reserved entries next)
    (absent : name ∉ entries.map Prod.fst) : next.decl name = env.decl name := by
  have lookup : next.decl name = (env.insertAll entries).decl name := by
    rw [Env.decl, adds.decls, Env.decl]
  rw [lookup]
  exact Env.decl_insertAll_of_not_mem absent

section Calls

variable {env next : Env} {alloc : Allocator} {universeConstraints : List UniverseConstraint}

variable {universeParams : List String}

theorem addAxiom_adds {ty : Expr}
    (h : env.addAxiomWithUniverseConstraints alloc name universeParams universeConstraints ty =
      .ok next) :
    Adds env [] [(name, .axiomDecl name universeParams universeConstraints ty)] next := by
  simp only [Env.addAxiomWithUniverseConstraints, Result.bind_eq_ok, Except.ok.injEq] at h
  obtain ⟨_, hfresh, _, _, _, _, rfl⟩ := h
  exact Adds.of_insert _ (ensureFresh_spec hfresh)

theorem addDef_adds {ty value : Expr} {reducibility : Reducibility}
    (h : env.addDefWithUniverseConstraints alloc name universeParams universeConstraints ty value
      reducibility = .ok next) :
    Adds env [] [(name, .defDecl name universeParams universeConstraints ty value reducibility)]
      next := by
  simp only [Env.addDefWithUniverseConstraints, Result.bind_eq_ok, Except.ok.injEq] at h
  obtain ⟨_, hfresh, _, _, _, _, _, _, rfl⟩ := h
  exact Adds.of_insert _ (ensureFresh_spec hfresh)

theorem addTheorem_adds {ty proof : Expr}
    (h : env.addTheoremWithUniverseConstraints alloc name universeParams universeConstraints ty
      proof = .ok next) :
    Adds env [] [(name, .theoremDecl name universeParams universeConstraints ty proof)] next := by
  simp only [Env.addTheoremWithUniverseConstraints, Result.bind_eq_ok, Except.ok.injEq] at h
  obtain ⟨_, hfresh, _, _, _, _, _, _, rfl⟩ := h
  exact Adds.of_insert _ (ensureFresh_spec hfresh)

theorem addFamily_eq {universeContext : UniverseContext} {candidate next : Env}
    {data : InductiveDecl} (h : Env.addFamily alloc universeContext candidate data = .ok next) :
    next = candidate.insertInductive data := by
  simp only [Env.addFamily, Result.bind_eq_ok, Except.ok.injEq] at h
  obtain ⟨_, _, rfl⟩ := h
  rfl

theorem addRecursor_eq {check : Env → RecursorDecl → RecursorRules → UniverseContext → Result Unit}
    {generated : RecursorRules} {data : InductiveDecl}
    (h : env.addRecursor alloc universeConstraints check generated data = .ok next) :
    next = env.insertAll (recursorEntries generated data) := by
  unfold Env.addRecursor at h
  unfold recursorEntries
  split at h
  next hnone =>
    cases h
    rw [hnone]
    rfl
  next recursor hsome =>
    simp only [Result.bind_eq_ok, Except.ok.injEq] at h
    obtain ⟨_, _, _, _, _, _, rfl⟩ := h
    rw [hsome]
    rfl

theorem foldl_insertConstructor (data : InductiveDecl) (env : Env) :
    data.constructors.foldl (fun env constructor => env.insertConstructor data constructor) env =
      env.insertAll (constructorEntries data) := by
  rw [Env.insertAll, constructorEntries, List.foldl_map]
  rfl

/-- A loop whose turns insert the entries of the items inserts them all. -/
theorem foldl_insertAll {α : Type} (entries : α → List (String × Decl)) (items : List α)
    (env : Env) :
    items.foldl (fun env item => env.insertAll (entries item)) env =
      env.insertAll (items.flatMap entries) := by
  induction items generalizing env with
  | nil => rfl
  | cons item items ih => rw [List.foldl_cons, ih, List.flatMap_cons, Env.insertAll_append]

theorem addInductive_adds {data : InductiveDecl} (h : env.addInductive alloc data = .ok next) :
    Adds env [] (inductiveEntries data) next := by
  simp only [Env.addInductive, Result.bind_eq_ok] at h
  obtain ⟨_, _, _, _, _, hfresh, _, _, candidate, hconstructors, hrecursor⟩ := h
  obtain ⟨nodup, fresh⟩ := ensureNamesFresh_spec hfresh
  have names : (inductiveEntries data).map Prod.fst =
      [data.name] ++ data.constructors.map (·.name) ++ data.recursor.toList.map (·.name) := by
    simp [inductiveEntries, inductiveEntry, constructorEntries, recursorEntries,
      Function.comp_def]
  have constructors : candidate =
      (env.insertInductive data).insertAll (constructorEntries data) := by
    rw [← foldl_insertConstructor]
    refine Result.foldEach_eq_foldl ?_ _ hconstructors
    intro before constructor after hstep
    simp only [Result.bind_eq_ok, Except.ok.injEq] at hstep
    obtain ⟨_, _, rfl⟩ := hstep
    rfl
  refine ⟨?_, by simpa [names] using nodup, ?_⟩
  · rw [addRecursor_eq hrecursor, constructors, inductiveEntries, Env.insertAll_append,
      Env.insertAll_append]
    rfl
  · intro name mem
    rw [List.nil_append, names] at mem
    exact (fresh name mem).2

theorem insertGroups_decls (group : MutualGroupInfo) (names : List String) (env : Env) :
    (names.foldl (fun candidate name => candidate.insertGroup group name) env).decls =
      env.decls := by
  induction names generalizing env with
  | nil => rfl
  | cons name names ih => exact ih _

theorem decl_insertGroups (group : MutualGroupInfo) (names : List String) (env : Env)
    (name : String) :
    (names.foldl (fun candidate name => candidate.insertGroup group name) env).decl name =
      env.decl name := by
  rw [Env.decl, insertGroups_decls, Env.decl]

theorem mutualGroup_insertGroups (group : MutualGroupInfo) (names : List String) (env : Env)
    (name : String) :
    (names.foldl (fun candidate name => candidate.insertGroup group name) env).mutualGroup name =
      if name ∈ names then some group else env.mutualGroup name := by
  induction names generalizing env with
  | nil => simp
  | cons first rest ih =>
    rw [List.foldl_cons, ih, Env.mutualGroup_insertGroup]
    by_cases later : name ∈ rest
    · simp [later]
    · by_cases here : name = first
      · simp [here]
      · simp [later, here]

theorem addMutualInductive_adds {block : MutualInductiveBlock}
    (h : env.addMutualInductive alloc block = .ok next) :
    Adds env [block.name] (mutualEntries block) next := by
  simp only [Env.addMutualInductive, Result.bind_eq_ok, Except.ok.injEq] at h
  obtain ⟨_, _, universeContext, _, _, hfresh, _, _, families, hfamilies, middle, hconstructors,
    candidate, hrecursors, rfl⟩ := h
  obtain ⟨nodup, fresh⟩ := ensureNamesFresh_spec hfresh
  have names : [block.name] ++ (mutualEntries block).map Prod.fst =
      [block.name] ++ block.inductives.map (·.name) ++
        block.inductives.flatMap (fun data => data.constructors.map (·.name)) ++
        block.inductives.filterMap (fun data => data.recursor.map (·.name)) := by
    have recursors : (block.inductives.flatMap fun data =>
        data.recursor.toList.map (·.name)) =
          block.inductives.filterMap fun data => data.recursor.map (·.name) := by
      rw [List.filterMap_eq_flatMap_toList]
      refine List.flatMap_congr fun data _ => ?_
      cases data.recursor <;> rfl
    simp [mutualEntries, inductiveEntry, constructorEntries, recursorEntries, List.map_flatMap,
      Function.comp_def, ← recursors]
  have first : families = env.insertAll (block.inductives.map inductiveEntry) := by
    rw [Result.foldEach_eq_foldl (fun _ _ _ => addFamily_eq) _ hfamilies, Env.insertAll,
      List.foldl_map]
    rfl
  have second : middle = families.insertAll (block.inductives.flatMap constructorEntries) := by
    rw [← foldl_insertAll]
    refine Result.foldEach_eq_foldl ?_ _ hconstructors
    intro before data after hloop
    rw [← foldl_insertConstructor]
    refine Result.foldEach_eq_foldl ?_ _ hloop
    intro s constructor t hstep
    simp only [Env.addMutualConstructor, Result.bind_eq_ok, Except.ok.injEq] at hstep
    obtain ⟨_, _, rfl⟩ := hstep
    rfl
  have third : candidate = middle.insertAll (block.inductives.flatMap fun data =>
      recursorEntries (generatedMutualRecursorRules block data) data) := by
    rw [← foldl_insertAll]
    exact Result.foldEach_eq_foldl (fun _ _ _ => addRecursor_eq) _ hrecursors
  refine ⟨?_, by rwa [names], ?_⟩
  · rw [insertGroups_decls, third, second, first, mutualEntries, Env.insertAll_append,
      Env.insertAll_append]
  · intro name mem
    rw [names] at mem
    exact (fresh name mem).2

end Calls

end NpaCore.Kernel
