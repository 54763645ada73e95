import NpaCore.Kernel.Admission

/-!
# The methods that change an environment

The `add_*` methods as the source writes them: methods on `&mut self` that return
`Ok(())` or an error. A declaration of one constant is inserted into `self` after
its checks; an inductive or a block is built up in a clone, which replaces `self`
at the end.

## Main result

`EnvMut.addDecl_commits`: each method leaves the environment that the function of
the same name in `Env` returns, and on an error the environment it was called with.
-/

namespace NpaCore.Kernel

/-- What the `add_*` methods take. The forms of the source with and without universe
    constraints are one constructor each. -/
inductive Declaration where
  | axiomDecl (name : String) (universeParams : List String)
      (universeConstraints : List UniverseConstraint) (ty : Expr)
  | defDecl (name : String) (universeParams : List String)
      (universeConstraints : List UniverseConstraint) (ty value : Expr)
      (reducibility : Reducibility)
  | theoremDecl (name : String) (universeParams : List String)
      (universeConstraints : List UniverseConstraint) (ty proof : Expr)
  | inductiveDecl (data : InductiveDecl)
  | mutualInductiveBlock (data : MutualInductiveBlock)
  deriving DecidableEq, Repr

def Declaration.name : Declaration → String
  | .axiomDecl name .. | .defDecl name .. | .theoremDecl name .. => name
  | .inductiveDecl data => data.name
  | .mutualInductiveBlock block => block.name

def Declaration.universeParams : Declaration → List String
  | .axiomDecl _ params .. | .defDecl _ params .. | .theoremDecl _ params .. => params
  | .inductiveDecl data => data.universeParams
  | .mutualInductiveBlock block => block.universeParams

/-- A method on `&mut self`. -/
abbrev EnvMut := Run Env Error Unit

namespace EnvMut

variable (alloc : Allocator)

def addAxiomWithUniverseConstraints (name : String) (universeParams : List String)
    (universeConstraints : List UniverseConstraint) (ty : Expr) : EnvMut := do
  Run.ask fun self => self.ensureFresh name
  let universeContext ← Run.lift (UniverseContext.new universeParams universeConstraints)
  let _ ← Run.ask fun self => self.expectSortInUniverseContext alloc .new universeContext ty
  Run.modify fun self =>
    self.insertDecl name (.axiomDecl name universeParams universeConstraints ty)

def addDefWithUniverseConstraints (name : String) (universeParams : List String)
    (universeConstraints : List UniverseConstraint) (ty value : Expr)
    (reducibility : Reducibility) : EnvMut := do
  Run.ask fun self => self.ensureFresh name
  let universeContext ← Run.lift (UniverseContext.new universeParams universeConstraints)
  let _ ← Run.ask fun self => self.expectSortInUniverseContext alloc .new universeContext ty
  Run.ask fun self => self.checkInUniverseContext alloc .new universeContext value ty
  Run.modify fun self => self.insertDecl name
    (.defDecl name universeParams universeConstraints ty value reducibility)

def addTheoremWithUniverseConstraints (name : String) (universeParams : List String)
    (universeConstraints : List UniverseConstraint) (ty proof : Expr) : EnvMut := do
  Run.ask fun self => self.ensureFresh name
  let universeContext ← Run.lift (UniverseContext.new universeParams universeConstraints)
  let _ ← Run.ask fun self => self.expectSortInUniverseContext alloc .new universeContext ty
  Run.ask fun self => self.checkInUniverseContext alloc .new universeContext proof ty
  Run.modify fun self =>
    self.insertDecl name (.theoremDecl name universeParams universeConstraints ty proof)

def addInductive (data : InductiveDecl) : EnvMut := do
  let universeContext ←
    Run.lift (UniverseContext.new data.universeParams data.universeConstraints)
  Run.lift (ensureLevelWf universeContext.params data.sort)
  Run.ask fun self => self.ensureInductiveNamesFresh data
  let _ ← Run.ask fun self =>
    self.expectSortInUniverseContext alloc .new universeContext (inductiveType data)
  let candidate ← Run.onClone do
    Run.modify fun candidate => candidate.insertInductive data
    Run.forEach data.constructors fun constructor => do
      Run.ask fun candidate =>
        checkConstructorDecl candidate alloc data constructor universeContext
      Run.modify fun candidate => candidate.insertConstructor data constructor
    match data.recursor with
    | none => pure ()
    | some recursor => do
      let recursorContext ←
        Run.lift (UniverseContext.new recursor.universeParams data.universeConstraints)
      let _ ← Run.ask fun candidate =>
        candidate.expectSortInUniverseContext alloc .new recursorContext recursor.ty
      let rules := recursor.rules.getD (generatedRecursorRules data)
      Run.ask fun candidate => checkRecursorDecl candidate alloc data recursor rules recursorContext
      Run.modify fun candidate => candidate.insertRecursor data recursor rules
  Run.replace candidate

def addMutualInductive (block : MutualInductiveBlock) : EnvMut := do
  let first ← Run.lift (Result.okOr block.inductives.head?
    (invalid [block.name, " mutual block must contain at least one inductive"]))
  let universeContext ←
    Run.lift (UniverseContext.new block.universeParams block.universeConstraints)
  Run.ask fun self => self.ensureMutualInductiveNamesFresh block
  Run.lift (Env.ensureSharedTelescopes block first universeContext)
  let candidate ← Run.onClone do
    Run.forEach block.inductives fun data => do
      let _ ← Run.ask fun candidate =>
        candidate.expectSortInUniverseContext alloc .new universeContext (inductiveType data)
      Run.modify fun candidate => candidate.insertInductive data
    Run.forEach block.inductives fun data =>
      Run.forEach data.constructors fun constructor => do
        Run.ask fun candidate =>
          checkMutualConstructorDecl candidate alloc block data constructor universeContext
        Run.modify fun candidate => candidate.insertConstructor data constructor
    Run.forEach block.inductives fun data =>
      match data.recursor with
      | none => pure ()
      | some recursor => do
        let recursorContext ←
          Run.lift (UniverseContext.new recursor.universeParams block.universeConstraints)
        let _ ← Run.ask fun candidate =>
          candidate.expectSortInUniverseContext alloc .new recursorContext recursor.ty
        let rules := recursor.rules.getD (generatedMutualRecursorRules block data)
        Run.ask fun candidate =>
          checkMutualRecursorDecl candidate alloc block data recursor rules recursorContext
        Run.modify fun candidate => candidate.insertRecursor data recursor rules
    let group := Env.mutualGroupInfo block
    Run.forEach group.inductives fun name =>
      Run.modify fun candidate => candidate.insertGroup group name
  Run.replace candidate

/-- The method for a declaration. -/
def addDecl : Declaration → EnvMut
  | .axiomDecl name universeParams universeConstraints ty =>
    addAxiomWithUniverseConstraints alloc name universeParams universeConstraints ty
  | .defDecl name universeParams universeConstraints ty value reducibility =>
    addDefWithUniverseConstraints alloc name universeParams universeConstraints ty value
      reducibility
  | .theoremDecl name universeParams universeConstraints ty proof =>
    addTheoremWithUniverseConstraints alloc name universeParams universeConstraints ty proof
  | .inductiveDecl data => addInductive alloc data
  | .mutualInductiveBlock block => addMutualInductive alloc block

/-- `expose_checked_opaque_definition`, the one other method that changes an environment. -/
def exposeCheckedOpaqueDefinition (name : String) : Run Env Error Bool := fun env =>
  match env.decl name with
  | some (.defDecl declName universeParams universeConstraints ty value .opaqueDef) =>
    (.ok true, env.insertDecl name
      (.defDecl declName universeParams universeConstraints ty value .reducible))
  | _ => (.ok false, env)

end EnvMut

/-! ### What the methods leave -/

/-- The functions behind the methods. -/
def Env.addDecl (env : Env) (alloc : Allocator) : Declaration → Result Env
  | .axiomDecl name universeParams universeConstraints ty =>
    env.addAxiomWithUniverseConstraints alloc name universeParams universeConstraints ty
  | .defDecl name universeParams universeConstraints ty value reducibility =>
    env.addDefWithUniverseConstraints alloc name universeParams universeConstraints ty value
      reducibility
  | .theoremDecl name universeParams universeConstraints ty proof =>
    env.addTheoremWithUniverseConstraints alloc name universeParams universeConstraints ty proof
  | .inductiveDecl data => env.addInductive alloc data
  | .mutualInductiveBlock block => env.addMutualInductive alloc block

section Commits

variable {alloc : Allocator}

/-- The work on the clone for the recursor of a family. -/
theorem addRecursor_leaves {universeConstraints : List UniverseConstraint}
    {expectSort : Env → UniverseContext → Expr → Result Level}
    {check check' : Env → RecursorDecl → RecursorRules → UniverseContext → Result Unit}
    (sameSort : ∀ env context ty,
      expectSort env context ty = env.expectSortInUniverseContext alloc .new context ty)
    (same : ∀ env recursor rules context,
      check env recursor rules context = check' env recursor rules context)
    (generated : RecursorRules) (data : InductiveDecl) :
    Run.Leaves
      (match data.recursor with
      | none => pure ()
      | some recursor => do
        let recursorContext ←
          Run.lift (UniverseContext.new recursor.universeParams universeConstraints)
        let _ ← Run.ask fun candidate => expectSort candidate recursorContext recursor.ty
        let rules := recursor.rules.getD generated
        Run.ask fun candidate => check candidate recursor rules recursorContext
        Run.modify fun candidate => candidate.insertRecursor data recursor rules)
      fun candidate => candidate.addRecursor alloc universeConstraints check' generated data := by
  unfold Env.addRecursor
  cases data.recursor with
  | none => exact Run.leaves_pure
  | some recursor =>
    refine Run.leaves_lift fun context => ?_
    refine Run.leaves_ask (fun env => sameSort env context recursor.ty) fun _ => ?_
    refine Run.leaves_ask (fun env => same env recursor _ context) fun _ => ?_
    exact Run.leaves_modify _

/-- The loop over the constructors of a family. -/
theorem addConstructors_leaves {check check' : Env → ConstructorDecl → Result Unit}
    (same : ∀ env constructor, check env constructor = check' env constructor)
    (data : InductiveDecl) :
    Run.Leaves
      (Run.forEach data.constructors fun constructor => do
        Run.ask fun candidate => check candidate constructor
        Run.modify fun candidate => candidate.insertConstructor data constructor)
      (fun candidate => Result.foldEach data.constructors candidate fun candidate constructor => do
        check' candidate constructor
        .ok (candidate.insertConstructor data constructor)) := by
  refine Run.leaves_forEach fun constructor => ?_
  exact Run.leaves_ask (fun env => same env constructor) fun _ => Run.leaves_modify _

/-- The work on the clone for an inductive: the family, its constructors, its recursor. -/
theorem inductiveWork_leaves {universeConstraints : List UniverseConstraint}
    {expectSort : Env → UniverseContext → Expr → Result Level}
    {checkConstructor checkConstructor' : Env → ConstructorDecl → Result Unit}
    {checkRecursor checkRecursor' :
      Env → RecursorDecl → RecursorRules → UniverseContext → Result Unit}
    {generated : RecursorRules}
    (sameConstructor : ∀ env constructor,
      checkConstructor env constructor = checkConstructor' env constructor)
    (sameSort : ∀ env context ty,
      expectSort env context ty = env.expectSortInUniverseContext alloc .new context ty)
    (sameRecursor : ∀ env recursor rules context,
      checkRecursor env recursor rules context = checkRecursor' env recursor rules context)
    (data : InductiveDecl) :
    Run.Leaves
      (do
        Run.modify fun candidate => candidate.insertInductive data
        Run.forEach data.constructors fun constructor => do
          Run.ask fun candidate => checkConstructor candidate constructor
          Run.modify fun candidate => candidate.insertConstructor data constructor
        match data.recursor with
        | none => pure ()
        | some recursor => do
          let recursorContext ←
            Run.lift (UniverseContext.new recursor.universeParams universeConstraints)
          let _ ← Run.ask fun candidate => expectSort candidate recursorContext recursor.ty
          let rules := recursor.rules.getD generated
          Run.ask fun candidate => checkRecursor candidate recursor rules recursorContext
          Run.modify fun candidate => candidate.insertRecursor data recursor rules)
      (fun env => do
        let candidate ← Result.foldEach data.constructors (env.insertInductive data)
          fun candidate constructor => do
            checkConstructor' candidate constructor
            .ok (candidate.insertConstructor data constructor)
        candidate.addRecursor alloc universeConstraints checkRecursor' generated data) := by
  let insertAll := fun env : Env => Result.foldEach data.constructors env
    fun candidate constructor => do
      checkConstructor' candidate constructor
      .ok (candidate.insertConstructor data constructor)
  let addRecursor := fun env : Env =>
    env.addRecursor alloc universeConstraints checkRecursor' generated data
  refine @Run.leaves_modify_bind _ _ _ _ (fun env => insertAll env >>= addRecursor) fun _ => ?_
  refine Run.leaves_bind (addConstructors_leaves sameConstructor data) fun _ => ?_
  exact addRecursor_leaves sameSort sameRecursor generated data

/-- The loop that records the group of a block. -/
theorem insertGroups_leaves (group : MutualGroupInfo) (names : List String) :
    Run.Leaves
      (Run.forEach names fun name =>
        Run.modify fun candidate => candidate.insertGroup group name : EnvMut)
      fun candidate =>
        .ok (names.foldl (fun candidate name => candidate.insertGroup group name) candidate) := by
  induction names with
  | nil => exact Run.leaves_pure
  | cons name names ih => exact Run.leaves_modify_bind fun _ => ih

theorem addInductive_commits (data : InductiveDecl) :
    Run.Commits (EnvMut.addInductive alloc data) fun env => env.addInductive alloc data := by
  refine Run.commits_lift fun universeContext => ?_
  refine Run.commits_lift fun _ => ?_
  refine Run.commits_ask (fun _ => rfl) fun _ => ?_
  refine Run.commits_ask (fun _ => rfl) fun _ => ?_
  refine Run.commits_onClone ?_
  exact inductiveWork_leaves (fun _ _ => rfl) (fun _ _ _ => rfl) (fun _ _ _ _ => rfl) data

theorem addMutualInductive_commits (block : MutualInductiveBlock) :
    Run.Commits (EnvMut.addMutualInductive alloc block) fun env =>
      env.addMutualInductive alloc block := by
  refine Run.commits_lift fun first => ?_
  refine Run.commits_lift fun universeContext => ?_
  refine Run.commits_ask (fun _ => rfl) fun _ => ?_
  refine Run.commits_lift fun _ => ?_
  refine Run.commits_onClone ?_
  -- the families, then all constructors, then all recursors, then the group
  refine Run.leaves_bind (Run.leaves_forEach fun data => ?_) fun _ => ?_
  · exact Run.leaves_ask (fun _ => rfl) fun _ => Run.leaves_modify _
  refine Run.leaves_bind (Run.leaves_forEach fun data => ?_) fun _ => ?_
  · exact addConstructors_leaves (fun _ _ => rfl) data
  refine Run.leaves_bind (Run.leaves_forEach fun data => ?_) fun _ => ?_
  · exact addRecursor_leaves (fun _ _ _ => rfl) (fun _ _ _ _ => rfl) _ data
  exact insertGroups_leaves _ _

theorem EnvMut.addDecl_commits (declaration : Declaration) :
    Run.Commits (EnvMut.addDecl alloc declaration) fun env => env.addDecl alloc declaration := by
  cases declaration with
  | axiomDecl name universeParams universeConstraints ty =>
    refine Run.commits_ask (fun _ => rfl) fun _ => ?_
    refine Run.commits_lift fun universeContext => ?_
    refine Run.commits_ask (fun _ => rfl) fun _ => ?_
    exact Run.commits_modify _
  | defDecl | theoremDecl =>
    refine Run.commits_ask (fun _ => rfl) fun _ => ?_
    refine Run.commits_lift fun universeContext => ?_
    refine Run.commits_ask (fun _ => rfl) fun _ => ?_
    refine Run.commits_ask (fun _ => rfl) fun _ => ?_
    exact Run.commits_modify _
  | inductiveDecl data => exact addInductive_commits data
  | mutualInductiveBlock block => exact addMutualInductive_commits block

end Commits

end NpaCore.Kernel
