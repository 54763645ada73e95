import NpaCore.Kernel.StoredTerms

/-!
# Enforcement of universe constraints

A constant may be used at levels at which its constraints follow from those of the
declaration that uses it. Admission asks for this at every occurrence, against the
constraints that the constant has when the occurrence is inferred. The constraints
of a mutual block are recorded with its group, and the group only when the whole
block has been admitted: inside the block its families, constructors and recursors
have no constraints, and their occurrences there are not checked.

## Main result

`BuiltFrom.constraintsEnforced`: in every environment built from declarations whose
constraints are `IMaxHarmless` and from blocks whose own occurrences pass the check
that later occurrences get, the constraints hold at every occurrence of a constant in
a stored term.
-/

namespace NpaCore.Kernel

open NpaCore.Expr NpaCore.Level

/-! ### The property -/

/-- The constraints of the constant hold at the levels whenever the given ones hold. -/
def ConstraintsFollow (env : Env) (own : List UniverseConstraint) (name : String)
    (levels : List Level) : Prop :=
  ∃ decl params constraints, env.decl name = some decl ∧
    env.declConstraintContext decl = .ok (params, constraints) ∧
    ∀ ρ, Satisfies ρ own → Satisfies (substValuation decl.universeParams levels ρ) constraints

/-- In the stored terms of every declaration, the constraints of every constant follow from
    those of the declaration. -/
def Env.ConstraintsEnforced (env : Env) : Prop :=
  ∀ name decl, env.decl name = some decl →
    ∃ params own, env.declConstraintContext decl = .ok (params, own) ∧
      ∀ term ∈ decl.terms, term.Every (fun _ => True) (ConstraintsFollow env own)

/-! ### Constraint contexts -/

/-- The family whose constraints a declaration shares. -/
def Decl.family : Decl → Option String
  | .inductiveDecl name _ _ _ => some name
  | .constructorDecl _ _ _ inductiveName => some inductiveName
  | .recursorDecl _ _ _ inductiveName _ => some inductiveName
  | .axiomDecl .. | .defDecl .. | .theoremDecl .. => none

variable {context : List String × List UniverseConstraint}

/-- A context that is found stays what it is when the family keeps its group and its
    declaration. -/
theorem declConstraintContext_mono {base env : Env} {decl : Decl}
    (groups : ∀ name ∈ decl.family, env.mutualGroup name = base.mutualGroup name)
    (decls : ∀ name found, base.decl name = some found → env.decl name = some found)
    (h : base.declConstraintContext decl = .ok context) :
    env.declConstraintContext decl = .ok context := by
  have family : ∀ name ∈ decl.family, base.inductiveConstraintContext name = .ok context →
      env.inductiveConstraintContext name = .ok context := by
    intro name hname h
    rw [Env.inductiveConstraintContext] at h ⊢
    rw [groups name hname]
    split at h
    next => exact h
    next =>
      split at h
      next found =>
        rw [decls name _ found]
        exact h
      next => cases h
  cases decl with
  | axiomDecl | defDecl | theoremDecl => exact h
  | inductiveDecl name => exact family name rfl h
  | constructorDecl _ _ _ inductiveName => exact family inductiveName rfl h
  | recursorDecl _ _ _ inductiveName => exact family inductiveName rfl h

theorem checkConstConstraints_mono {base env : Env} {universeContext : UniverseContext}
    {name : String} {decl : Decl} {levels : List Level}
    (context : ∀ found, base.declConstraintContext decl = .ok found →
      env.declConstraintContext decl = .ok found)
    (h : checkConstConstraints base universeContext name decl levels = .ok ()) :
    checkConstConstraints env universeContext name decl levels = .ok () := by
  simp only [checkConstConstraints, Result.bind_eq_ok] at h ⊢
  obtain ⟨found, hfound, rest⟩ := h
  exact ⟨found, context found hfound, rest⟩

theorem mutualGroup_insertAll (env : Env) (added : List (String × Decl)) (name : String) :
    (env.insertAll added).mutualGroup name = env.mutualGroup name := by
  induction added generalizing env with
  | nil => rfl
  | cons entry added ih =>
    rw [Env.insertAll, List.foldl_cons]
    exact ih _

variable {entry : String × Decl}

theorem inductiveEntries_family {data : InductiveDecl}
    (mem : entry ∈ inductiveEntries data) : entry.2.family = some data.name := by
  simp only [inductiveEntries, List.mem_append, List.mem_singleton, constructorEntries,
    recursorEntries, List.mem_map] at mem
  rcases mem with (rfl | ⟨_, _, rfl⟩) | ⟨_, _, rfl⟩
  · rfl
  · rfl
  · rfl

theorem mutualEntries_family {block : MutualInductiveBlock} (mem : entry ∈ mutualEntries block) :
    ∃ data ∈ block.inductives, entry.2.family = some data.name := by
  simp only [mutualEntries, List.mem_append, List.mem_map, List.mem_flatMap, constructorEntries,
    recursorEntries] at mem
  rcases mem with (⟨data, hdata, rfl⟩ | ⟨data, hdata, _, _, rfl⟩) | ⟨data, hdata, _, _, rfl⟩
  · exact ⟨data, hdata, rfl⟩
  · exact ⟨data, hdata, rfl⟩
  · exact ⟨data, hdata, rfl⟩

theorem family_mem_names {declaration : Declaration}
    (mem : entry ∈ declaration.entries) {family : String} (hfamily : family ∈ entry.2.family) :
    family ∈ declaration.names := by
  cases declaration with
  | axiomDecl | defDecl | theoremDecl =>
    cases List.mem_singleton.mp mem
    cases hfamily
  | inductiveDecl data =>
    rw [inductiveEntries_family mem] at hfamily
    cases hfamily
    refine List.mem_map.mpr ⟨inductiveEntry data, ?_, rfl⟩
    simp [Declaration.entries, inductiveEntries]
  | mutualInductiveBlock block =>
    obtain ⟨data, hdata, same⟩ := mutualEntries_family mem
    rw [same] at hfamily
    cases hfamily
    refine List.mem_map.mpr ⟨inductiveEntry data, ?_, rfl⟩
    simp only [Declaration.entries, mutualEntries, List.mem_append]
    exact .inl (.inl (List.mem_map_of_mem hdata))

/-- The family of a declaration is declared. -/
def FamiliesDeclared (env : Env) : Prop :=
  ∀ name decl, env.decl name = some decl → ∀ family ∈ decl.family, ∃ found, env.decl family = some found

section Admitted

variable {env next : Env} {declaration : Declaration}

theorem Admitted.familiesDeclared (admitted : Admitted env declaration next)
    (declared : FamiliesDeclared env) : FamiliesDeclared next := by
  intro name decl hdecl family hfamily
  rcases admitted.decl_cases hdecl with new | old
  · obtain ⟨⟨_, found⟩, mem, rfl⟩ := List.mem_map.mp (family_mem_names new hfamily)
    exact ⟨found, admitted.added _ mem⟩
  · obtain ⟨found, hfound⟩ := declared name decl old family hfamily
    exact ⟨found, admitted.decl_old hfound⟩

/-- The contexts found while the entries are inserted, for families outside of the groups
    that the call adds. -/
theorem Admitted.context_among (admitted : Admitted env declaration next)
    {added : List (String × Decl)} (sub : added ⊆ declaration.entries) {decl : Decl}
    (apart : ∀ family ∈ decl.family, declaration.group family = none)
    (h : (env.insertAll added).declConstraintContext decl = .ok context) :
    next.declConstraintContext decl = .ok context := by
  refine declConstraintContext_mono ?_ (fun _ _ found => admitted.decl_among sub found) h
  intro family hfamily
  rw [admitted.groups, apart family hfamily, mutualGroup_insertAll, Option.none_or]

/-- The families of old declarations are not those of the block that a call adds. -/
theorem Admitted.group_of_old (admitted : Admitted env declaration next)
    (declared : FamiliesDeclared env) {name : String} {decl : Decl}
    (old : env.decl name = some decl) :
    ∀ family ∈ decl.family, declaration.group family = none := by
  intro family hfamily
  obtain ⟨found, hfound⟩ := declared name decl old family hfamily
  rw [Option.eq_none_iff_forall_not_mem]
  intro group hgroup
  rw [(admitted.fresh family (mem_names_of_group hgroup)).1] at hfound
  cases hfound

/-- The entries of a declaration have its constraints. -/
theorem Admitted.context_entry (admitted : Admitted env declaration next)
    (mem : entry ∈ declaration.entries) :
    ∃ params, next.declConstraintContext entry.2 =
      .ok (params, declaration.universeConstraints) := by
  have shared : ∀ family, entry.2.family = some family →
      next.declConstraintContext entry.2 = next.inductiveConstraintContext family := by
    intro family hfamily
    cases hentry : entry.2 with
    | axiomDecl | defDecl | theoremDecl =>
      rw [hentry] at hfamily
      cases hfamily
    | inductiveDecl | constructorDecl | recursorDecl =>
      rw [hentry] at hfamily
      cases hfamily
      rfl
  cases declaration with
  | axiomDecl | defDecl | theoremDecl =>
    cases List.mem_singleton.mp mem
    exact ⟨_, rfl⟩
  | inductiveDecl data =>
    have own : inductiveEntry data ∈ (Declaration.inductiveDecl data).entries := by
      simp [Declaration.entries, inductiveEntries]
    have fresh := (admitted.fresh data.name (List.mem_map_of_mem own)).2
    have alone : next.mutualGroup data.name = none := by
      rw [admitted.groups, fresh]
      rfl
    have found : next.decl data.name = some (inductiveEntry data).2 := admitted.added _ own
    refine ⟨data.universeParams, ?_⟩
    rw [shared _ (inductiveEntries_family mem), Env.inductiveConstraintContext, alone, found]
    rfl
  | mutualInductiveBlock block =>
    obtain ⟨data, hdata, hfamily⟩ := mutualEntries_family mem
    refine ⟨block.universeParams, ?_⟩
    rw [shared _ hfamily, Env.inductiveConstraintContext, admitted.groups, Declaration.group,
      if_pos (List.mem_map_of_mem hdata)]
    rfl

end Admitted

/-! ### The check that is missing inside a block -/

/-- An environment that knows of a block only the constraints that its families share. -/
def blockGroups (block : MutualInductiveBlock) : Env :=
  (block.inductives.map (·.name)).foldl
    (fun env name => env.insertGroup (Env.mutualGroupInfo block) name) Env.new

/-- Inside the block, the occurrences of its own declarations pass the check that an
    occurrence after the block gets. -/
def MembersChecked (block : MutualInductiveBlock) : Prop :=
  ∀ entry ∈ mutualEntries block, ∀ term ∈ entry.2.terms, ∀ universeContext,
    UniverseContext.new entry.2.universeParams block.universeConstraints = .ok universeContext →
      term.Every (fun _ => True) fun name levels => ∀ decl, (name, decl) ∈ mutualEntries block →
        checkConstConstraints (blockGroups block) universeContext name decl levels = .ok ()

def Declaration.MembersChecked : Declaration → Prop
  | mutualInductiveBlock block => Kernel.MembersChecked block
  | axiomDecl .. | defDecl .. | theoremDecl .. | inductiveDecl .. => True

/-- What a declaration must meet for its constraints to be enforced. -/
structure Enforceable (declaration : Declaration) : Prop where
  harmless : IMaxHarmless declaration.universeConstraints
  members : declaration.MembersChecked

theorem blockGroups_context {block : MutualInductiveBlock} {next : Env}
    (groups : ∀ name ∈ block.inductives.map (·.name),
      next.mutualGroup name = some (Env.mutualGroupInfo block)) (mem : entry ∈ mutualEntries block)
    (h : (blockGroups block).declConstraintContext entry.2 = .ok context) :
    next.declConstraintContext entry.2 = .ok context := by
  obtain ⟨data, hdata, hfamily⟩ := mutualEntries_family mem
  refine declConstraintContext_mono ?_ ?_ h
  · intro name hname
    rw [hfamily] at hname
    cases hname
    have member : data.name ∈ block.inductives.map (·.name) := List.mem_map_of_mem hdata
    rw [groups data.name member, blockGroups, mutualGroup_insertGroups, if_pos member]
  · intro name found hfound
    rw [blockGroups, decl_insertGroups] at hfound
    cases hfound

section Step

variable {env next : Env} {declaration : Declaration}

/-- In the terms of a new entry, every occurrence passes the check in the environment that the
    call leaves. -/
theorem Admitted.occurrences_checked {alloc : Allocator}
    (admitted : Admitted env declaration next) (declared : FamiliesDeclared env)
    (members : declaration.MembersChecked) (h : env.addDecl alloc declaration = .ok next)
    (mem : entry ∈ declaration.entries) {term : Expr} (hterm : term ∈ entry.2.terms) :
    ∃ universeContext,
      UniverseContext.new entry.2.universeParams declaration.universeConstraints =
        .ok universeContext ∧
      term.Every (fun _ => True) fun name levels => ∃ decl, next.decl name = some decl ∧
        checkConstConstraints next universeContext name decl levels = .ok () := by
  obtain ⟨added, sub, universeContext, context, checked⟩ := addDecl_checked h entry mem term hterm
  refine ⟨universeContext, context, ?_⟩
  by_cases grouped : ∃ block, declaration = .mutualInductiveBlock block
  · obtain ⟨block, rfl⟩ := grouped
    have groups : ∀ name ∈ block.inductives.map (·.name),
        next.mutualGroup name = some (Env.mutualGroupInfo block) := by
      intro name hname
      rw [admitted.groups, Declaration.group, if_pos hname]
      rfl
    refine (Every.and checked (members entry mem term hterm universeContext context)).mono
      (fun _ _ => trivial) ?_
    rintro name levels ⟨⟨decl, hdecl, _, _, passed⟩, own⟩
    refine ⟨decl, admitted.decl_among sub hdecl, ?_⟩
    rcases decl_insertAll_cases hdecl with new | old
    · -- the members had no constraints when the term was inferred
      refine checkConstConstraints_mono ?_ (own decl (sub new))
      exact fun _ found => blockGroups_context groups (sub new) found
    · refine checkConstConstraints_mono ?_ passed
      exact fun _ found => admitted.context_among sub (admitted.group_of_old declared old) found
  · refine Every.mono checked (fun _ _ => trivial) ?_
    rintro name levels ⟨decl, hdecl, _, _, passed⟩
    refine ⟨decl, admitted.decl_among sub hdecl, checkConstConstraints_mono ?_ passed⟩
    refine fun _ found => admitted.context_among sub (fun family _ => ?_) found
    cases declaration with
    | mutualInductiveBlock block => exact absurd ⟨block, rfl⟩ grouped
    | axiomDecl | defDecl | theoremDecl | inductiveDecl => rfl

/-- Old declarations keep their contexts and their constants. -/
theorem Admitted.follow_old (admitted : Admitted env declaration next)
    (declared : FamiliesDeclared env) {own : List UniverseConstraint} {name : String}
    {levels : List Level} (h : ConstraintsFollow env own name levels) :
    ConstraintsFollow next own name levels := by
  obtain ⟨decl, params, constraints, hdecl, context, follow⟩ := h
  refine ⟨decl, params, constraints, admitted.decl_old hdecl, ?_, follow⟩
  exact admitted.context_among (List.nil_subset _) (admitted.group_of_old declared hdecl) context

theorem Admitted.keeps_enforced {alloc : Allocator} (admitted : Admitted env declaration next)
    (declared : FamiliesDeclared env) (enforceable : Enforceable declaration)
    (h : env.addDecl alloc declaration = .ok next) (before : env.ConstraintsEnforced) :
    next.ConstraintsEnforced := by
  intro name decl hdecl
  rcases admitted.decl_cases hdecl with new | old
  · obtain ⟨params, own⟩ := admitted.context_entry new
    refine ⟨params, declaration.universeConstraints, own, ?_⟩
    intro term hterm
    obtain ⟨universeContext, context, checked⟩ :=
      admitted.occurrences_checked declared enforceable.members h new hterm
    obtain ⟨_, accepted⟩ := new_accepted context
    have sound := entailmentSound_of_new enforceable.harmless context
    refine checked.mono (fun _ h => h) ?_
    rintro constant levels ⟨target, htarget, passed⟩
    obtain ⟨targetParams, constraints, targetContext, holds⟩ :=
      checkConstConstraints_sound sound passed
    rw [accepted.constraints_eq] at holds
    exact ⟨target, targetParams, constraints, htarget, targetContext, holds⟩
  · obtain ⟨params, own, context, enforced⟩ := before name decl old
    refine ⟨params, own, ?_, ?_⟩
    · exact admitted.context_among (List.nil_subset _) (admitted.group_of_old declared old) context
    · intro term hterm
      exact (enforced term hterm).mono (fun _ h => h) fun _ _ follow =>
        admitted.follow_old declared follow

end Step

/-! ### Runs -/

theorem BuiltFrom.constraintsEnforced {env : Env} (built : BuiltFrom Enforceable env) :
    env.ConstraintsEnforced := by
  have invariant : FamiliesDeclared env ∧ env.ConstraintsEnforced := by
    refine built.induct (I := fun env => FamiliesDeclared env ∧ env.ConstraintsEnforced) ?_ ?_
    · intro options
      exact ⟨fun _ _ declared => (nomatch declared), fun _ _ declared => (nomatch declared)⟩
    · rintro env next alloc declaration _ enforceable h admitted ⟨declared, enforced⟩
      exact ⟨admitted.familiesDeclared declared,
        admitted.keeps_enforced declared enforceable h enforced⟩
  exact invariant.2

/-- A block with `u ≤ v` and two families: `A : Type`, and `B`, indexed by `A` at the given
    levels. -/
def orderedBlock (levels : List Level) : MutualInductiveBlock where
  name := "AB"
  universeParams := ["u", "v"]
  universeConstraints := [⟨.param "u", .le, .param "v"⟩]
  inductives :=
    [⟨"A", ["u", "v"], [], [], [], .succ .zero, [], none⟩,
      ⟨"B", ["u", "v"], [], [], [⟨"x", .const "A" levels⟩], .succ .zero, [], none⟩]

/-- The environment after the block. -/
def orderedBlockEnv (levels : List Level) : Env :=
  (["A", "B"] : List String).foldl
    (fun env name => env.insertGroup (Env.mutualGroupInfo (orderedBlock levels)) name)
    (Env.new.insertAll (mutualEntries (orderedBlock levels)))

theorem orderedBlock_enforceable :
    Enforceable (.mutualInductiveBlock (orderedBlock [.param "u", .param "v"])) := by
  constructor
  · intro ρ satisfied constraint mem _ _
    cases List.mem_singleton.mp mem
    exact satisfied _ mem
  · intro entry mem term hterm universeContext context
    have accepted : UniverseContext.new ["u", "v"] [⟨.param "u", .le, .param "v"⟩] =
        .ok ⟨["u", "v"], [⟨.param "u", .le, .param "v"⟩],
          [[some 0, none, none], [some 0, some 0, none], [some 0, some 0, some 0]]⟩ := by
      decide +kernel
    -- the only occurrence is that of `A` in the type of `B`, at the levels of the block
    rcases List.mem_pair.mp mem with rfl | rfl
    · cases List.mem_singleton.mp hterm
      trivial
    · cases List.mem_singleton.mp hterm
      cases Except.ok.inj (accepted.symm.trans context)
      refine ⟨?_, trivial⟩
      intro decl hdecl
      rcases List.mem_pair.mp hdecl with same | same
      · cases same
        decide +kernel
      · have names : "A" = "B" := congrArg Prod.fst same
        exact absurd names (by decide)

theorem constraintsEnforced_in_block :
    BuiltFrom Enforceable (orderedBlockEnv [.param "u", .param "v"]) ∧
      (orderedBlockEnv [.param "u", .param "v"]).ConstraintsEnforced := by
  have accepted : Env.new.addDecl noReuse
      (.mutualInductiveBlock (orderedBlock [.param "u", .param "v"])) =
        .ok (orderedBlockEnv [.param "u", .param "v"]) :=
    Result.ok_of_toOption (by decide +kernel)
  have built : BuiltFrom Enforceable (orderedBlockEnv [.param "u", .param "v"]) :=
    .add (.start .memoOff) orderedBlock_enforceable accepted
  exact ⟨built, built.constraintsEnforced⟩

/-- Inside the block, `B` may use `A` at the levels the other way around. -/
theorem constraints_not_enforced_in_block :
    ¬ ∀ env, BuiltFrom (fun _ => True) env → env.ConstraintsEnforced := by
  intro claim
  let levels : List Level := [.param "v", .param "u"]
  have accepted : Env.new.addDecl noReuse (.mutualInductiveBlock (orderedBlock levels)) =
      .ok (orderedBlockEnv levels) :=
    Result.ok_of_toOption (by decide +kernel)
  have built : BuiltFrom (fun _ => True) (orderedBlockEnv levels) :=
    .add (.start .memoOff) trivial accepted
  obtain ⟨params, own, context, enforced⟩ := claim _ built "B" _ rfl
  cases context
  obtain ⟨⟨decl, declParams, constraints, hdecl, hcontext, follow⟩, _⟩ :=
    enforced (.pi "x" (.const "A" levels) (.sort (.succ .zero))) List.mem_cons_self
  cases hdecl
  cases hcontext
  -- with `u` at 0 and `v` at 1 the constraint of the block holds, and that of `A.{v, u}` fails
  let ρ : String → Nat := fun name => if name = "v" then 1 else 0
  have satisfied : Satisfies ρ (orderedBlock levels).universeConstraints := by
    intro constraint member
    cases List.mem_singleton.mp member
    decide
  have below := follow ρ satisfied ⟨.param "u", .le, .param "v"⟩ List.mem_cons_self
  exact absurd below (by decide)

end NpaCore.Kernel
