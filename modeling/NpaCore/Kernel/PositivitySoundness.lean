import NpaCore.Kernel.AdmissionEffect

/-!
# Strict positivity of accepted mutual blocks

`direct_recursive_index_args` looks for the family's own name in the arguments of
an occurrence, and the families of a block are tried one by one, so the index
arguments of one family may mention another. A family that the block itself
declares as `List`, `Option` or `Prod` also passes for the approved functor.

## Main result

`addMutualInductive_strictlyPositive_iff`: the fields of an accepted block are
strictly positive exactly when neither of the two happens.
-/

namespace NpaCore.Kernel

open NpaCore.Expr

/-! ### Statement -/

/-- The number of parameters and indices of a family of the block. -/
def familyArity (block : MutualInductiveBlock) (name : String) : Option Nat :=
  (block.inductives.find? fun data => data.name = name).map fun data =>
    data.params.length + data.indices.length

/-- The environment in which the constructors of a block are checked. -/
def Env.withFamilies (env : Env) (block : MutualInductiveBlock) : Env :=
  block.inductives.foldl Env.insertInductive env

def blockRules (env : Env) (block : MutualInductiveBlock) : PositivityRules String String String :=
  mutualPositivityRules (env.withFamilies block) block

/-- The domain at that position of a constructor of the block. -/
def IsBlockDomain (block : MutualInductiveBlock) (domain : Expr) (index : Nat) : Prop :=
  ∃ data ∈ block.inductives, ∃ constructor ∈ data.constructors,
    (domain, index) ∈ constructor.ty.peelPiDomains.1.zipIdx

/-- A direct occurrence that the positivity walk reaches has no other family of the block
    in its index arguments. -/
def NoSiblingInIndices (env : Env) (block : MutualInductiveBlock) : Prop :=
  ∀ domain index, IsBlockDomain block domain index →
    ∀ visited ctxLen, (blockRules env block).Visits domain index visited ctxLen →
      ∀ family ∈ block.inductives, ∀ indices,
        directRecursiveIndexArgs family visited ctxLen = .ok indices →
          ∀ sibling ∈ block.inductives, sibling.name ≠ family.name →
            ∀ arg ∈ indices, arg.containsConst sibling.name = false

/-- A family of the block that the walk passes as an approved functor is applied to
    arguments without a family of the block. -/
def NoFunctorInBlock (env : Env) (block : MutualInductiveBlock) : Prop :=
  ∀ domain index, IsBlockDomain block domain index →
    ∀ visited ctxLen, (blockRules env block).Visits domain index visited ctxLen →
      (blockRules env block).MemberFunctor visited → (blockRules env block).ArgumentsFree visited

/-! ### Names of an accepted block -/

/-- What the name check of a block gives: its families have different names, and a
    constructor has neither the name of a family nor one that the environment has. -/
structure FreshBlock (env : Env) (block : MutualInductiveBlock) : Prop where
  families : (block.inductives.map (·.name)).Nodup
  constructors : ∀ data ∈ block.inductives, ∀ constructor ∈ data.constructors,
    constructor.name ∉ block.inductives.map (·.name) ∧ env.decl constructor.name = none

variable {block : MutualInductiveBlock}

theorem ensureMutualInductiveNamesFresh_spec {env : Env}
    (h : env.ensureMutualInductiveNamesFresh block = .ok ()) : FreshBlock env block := by
  obtain ⟨nodup, fresh⟩ := ensureNamesFresh_spec h
  have nodup' := (List.nodup_append.mp nodup).1
  obtain ⟨front, _, apart⟩ := List.nodup_append.mp nodup'
  refine ⟨(List.nodup_cons.mp front).2, ?_⟩
  intro data hdata constructor hconstructor
  have mem : constructor.name ∈
      block.inductives.flatMap fun data => data.constructors.map (·.name) :=
    List.mem_flatMap.mpr ⟨data, hdata, List.mem_map_of_mem hconstructor⟩
  refine ⟨fun family => ?_, (fresh _ (by simp only [List.mem_append, mem, or_true, true_or])).2⟩
  exact apart _ (List.mem_append_right _ family) _ mem rfl

/-! ### Families of the candidate environment -/

/-- The inductive that an environment has under a name. -/
def Env.inductiveAt (env : Env) (name : String) : Option InductiveDecl :=
  match env.decl name with
  | some (.inductiveDecl _ _ _ data) => some data
  | _ => none

theorem approvedPositiveArgs_congr {env other : Env}
    (h : ∀ name, env.inductiveAt name = other.inductiveAt name) :
    approvedPositiveArgs env = approvedPositiveArgs other := by
  have valid : ∀ env name arity, approvedNestedFunctorDeclIsValid env name arity =
      ((env.inductiveAt name).map (approvedDeclAt name arity)).getD false := by
    intro env name arity
    simp only [approvedNestedFunctorDeclIsValid, Env.inductiveAt]
    cases env.decl name with
    | none => rfl
    | some decl => cases decl <;> rfl
  funext name arity
  simp only [approvedPositiveArgs, valid, h]

theorem inductiveAt_foldl_insertInductive (families : List InductiveDecl)
    (nodup : (families.map (·.name)).Nodup) (env : Env) (name : String) :
    (families.foldl Env.insertInductive env).inductiveAt name =
      ((families.find? fun data => data.name = name).map some).getD (env.inductiveAt name) := by
  induction families generalizing env with
  | nil => rfl
  | cons first rest ih =>
    rw [List.map_cons, List.nodup_cons] at nodup
    rw [List.foldl_cons, ih nodup.2]
    by_cases same : first.name = name
    · have absent : (rest.find? fun data => data.name = name) = none := by
        rw [List.find?_eq_none]
        intro data hdata found
        have clash : data.name = first.name := (of_decide_eq_true found).trans same.symm
        exact nodup.1 (clash ▸ List.mem_map_of_mem hdata)
      rw [absent, List.find?_cons_of_pos (by simp [same])]
      simp [Env.inductiveAt, Env.insertInductive, same]
    · rw [List.find?_cons_of_neg (by simp [same])]
      have other : ¬name = first.name := fun e => same e.symm
      simp [Env.inductiveAt, Env.insertInductive, other]

variable {data : InductiveDecl} {constructor : ConstructorDecl}

theorem inductiveAt_insertConstructor {env : Env} (absent : env.inductiveAt constructor.name = none)
    (name : String) :
    (env.insertConstructor data constructor).inductiveAt name = env.inductiveAt name := by
  by_cases same : name = constructor.name
  · rw [same, absent]
    simp [Env.inductiveAt, Env.insertConstructor]
  · simp [Env.inductiveAt, Env.insertConstructor, same]

theorem inductiveAt_constructor {env : Env}
    (fresh : FreshBlock env block) (hdata : data ∈ block.inductives)
    (hconstructor : constructor ∈ data.constructors) :
    (env.withFamilies block).inductiveAt constructor.name = none := by
  obtain ⟨notFamily, notInEnv⟩ := fresh.constructors data hdata constructor hconstructor
  have absent : (block.inductives.find? fun d => d.name = constructor.name) = none := by
    rw [List.find?_eq_none]
    intro family hfamily found
    exact notFamily (of_decide_eq_true found ▸ List.mem_map_of_mem hfamily)
  rw [Env.withFamilies, inductiveAt_foldl_insertInductive _ fresh.families, absent]
  simp [Env.inductiveAt, notInEnv]

/-! ### The positivity check of every field -/

/-- One constructor: its domains pass the positivity check, and the families of the
    candidate stay those of `base`. -/
theorem addMutualConstructor_spec {alloc : Allocator}
    {universeContext : UniverseContext} {base candidate next : Env}
    (absent : base.inductiveAt constructor.name = none)
    (same : ∀ name, candidate.inductiveAt name = base.inductiveAt name)
    (h : Env.addMutualConstructor alloc block universeContext data candidate constructor = .ok next) :
    (∀ domain index, (domain, index) ∈ constructor.ty.peelPiDomains.1.zipIdx →
      checkMutualConstructorDomainPositive candidate block data constructor.name index domain =
        .ok ()) ∧
      ∀ name, next.inductiveAt name = base.inductiveAt name := by
  simp only [Env.addMutualConstructor, checkMutualConstructorDecl, checkConstructorWith,
    Result.bind_eq_ok, Result.forEach_eq_ok, Except.ok.injEq] at h
  obtain ⟨_, ⟨_, _, _, positive, _⟩, rfl⟩ := h
  refine ⟨fun domain index mem => positive (domain, index) mem, fun name => ?_⟩
  rw [inductiveAt_insertConstructor ((same _).trans absent), same]

theorem checkMutualConstructorDomainPositive_spec {candidate base : Env}
    {constructor : String} {index : Nat}
    {domain : Expr} (same : ∀ name, candidate.inductiveAt name = base.inductiveAt name)
    (h : checkMutualConstructorDomainPositive candidate block data constructor index domain =
      .ok ()) :
    (mutualPositivityRules base block).mentions domain = false ∨
      (mutualPositivityRules base block).occurrencesStrictlyPositive domain index = true := by
  have rules : mutualPositivityRules candidate block = mutualPositivityRules base block := by
    simp only [mutualPositivityRules, approvedPositiveArgs_congr same]
  simp only [checkMutualConstructorDomainPositive, Result.ensure_eq_ok, Bool.or_eq_true,
    Bool.and_eq_true, mutualRecursiveOccurrencesStrictlyPositive, rules] at h
  rcases h with ⟨_, positive⟩ | free
  · exact .inr positive
  · left
    simpa [PositivityRules.mentions, mutualPositivityRules] using free

theorem addMutualInductive_domain {env next : Env} {alloc : Allocator}
    (h : env.addMutualInductive alloc block = .ok next) :
    FreshBlock env block ∧ ∀ domain index, IsBlockDomain block domain index →
      (blockRules env block).mentions domain = false ∨
        (blockRules env block).occurrencesStrictlyPositive domain index = true := by
  simp only [Env.addMutualInductive, Result.bind_eq_ok] at h
  obtain ⟨_, _, universeContext, _, _, hfresh, _, _, candidate, hfamilies, _, hconstructors, _⟩ := h
  have fresh := ensureMutualInductiveNamesFresh_spec hfresh
  have families : candidate = env.withFamilies block :=
    Result.foldEach_eq_foldl (fun _ _ _ => addFamily_eq) _ hfamilies
  subst families
  refine ⟨fresh, ?_⟩
  rintro domain index ⟨data, hdata, constructor, hconstructor, hdomain⟩
  -- the constructors inserted before this one do not change the families
  have keeps : ∀ d ∈ block.inductives, ∀ c ∈ d.constructors, ∀ s t,
      Env.addMutualConstructor alloc block universeContext d s c = .ok t →
      (∀ name, s.inductiveAt name = (env.withFamilies block).inductiveAt name) →
      ∀ name, t.inductiveAt name = (env.withFamilies block).inductiveAt name :=
    fun d hd c hc s t hstep same =>
      (addMutualConstructor_spec (inductiveAt_constructor fresh hd hc) same hstep).2
  obtain ⟨before, _, sameBefore, hloop⟩ := Result.foldEach_step block.inductives
    (fun d hd s t hstep same => Result.foldEach_preserves d.constructors (keeps d hd) hstep same)
    hconstructors (fun _ => rfl) hdata
  obtain ⟨here, _, sameHere, hstep⟩ := Result.foldEach_step data.constructors (keeps data hdata)
    hloop sameBefore hconstructor
  have absent := inductiveAt_constructor fresh hdata hconstructor
  exact checkMutualConstructorDomainPositive_spec sameHere
    ((addMutualConstructor_spec absent sameHere hstep).1 domain index hdomain)

/-! ### Direct occurrences -/

theorem firstDirectRecursive_isSome {α : Type} {domain : Expr} {ctxLen : Nat}
    {families : List (α × InductiveDecl)} :
    (firstDirectRecursive domain ctxLen families).isSome = true ↔
      ∃ family ∈ families, ∃ indices,
        directRecursiveIndexArgs family.2 domain ctxLen = .ok indices := by
  induction families with
  | nil => simp [firstDirectRecursive]
  | cons first rest ih =>
    obtain ⟨label, data⟩ := first
    rw [firstDirectRecursive]
    cases hdata : directRecursiveIndexArgs data domain ctxLen with
    | ok indices => simp [hdata]
    | error e => simp [hdata, ih]

theorem direct_iff {env : Env} {domain : Expr} {ctxLen : Nat} :
    (blockRules env block).direct domain ctxLen = true ↔
      ∃ family ∈ block.inductives, ∃ indices,
        directRecursiveIndexArgs family domain ctxLen = .ok indices := by
  have ok : ∀ (x : Option (Nat × List Expr)) (e : Error),
      (Result.okOr x e).isOk = true ↔ x.isSome = true := by
    intro x e
    cases x with
    | none => simp [Result.okOr, Except.isOk, Except.toBool]
    | some a => simp [Result.okOr, Except.isOk, Except.toBool]
  simp only [blockRules, mutualPositivityRules, directMutualRecursiveIndexArgsInBlock, ok,
    firstDirectRecursive_isSome, List.mem_map]
  constructor
  · rintro ⟨_, ⟨⟨family, i⟩, hmem, rfl⟩, found⟩
    exact ⟨family, List.fst_mem_of_mem_zipIdx hmem, found⟩
  · rintro ⟨family, hfamily, found⟩
    obtain ⟨i, hi, rfl⟩ := List.getElem_of_mem hfamily
    exact ⟨_, ⟨(block.inductives[i], i), List.mk_mem_zipIdx_iff_getElem?.mpr (by simp), rfl⟩, found⟩

/-! ### The rules fit the block -/

theorem familyArity_of_mem (nodup : (block.inductives.map (·.name)).Nodup) {family : InductiveDecl}
    (hfamily : family ∈ block.inductives) :
    familyArity block family.name = some (family.params.length + family.indices.length) := by
  have found : (block.inductives.find? fun data => data.name = family.name) = some family := by
    obtain ⟨i, hi, rfl⟩ := List.getElem_of_mem hfamily
    rw [List.find?_eq_some_iff_getElem]
    refine ⟨by simp, i, hi, rfl, ?_⟩
    intro j hj
    have apart := List.nodup_iff_getElem?_ne_getElem?.mp nodup j i hj (by simpa using hi)
    simpa [hi, Nat.lt_trans hj hi] using apart
  simp [familyArity, found]

theorem approvedDecl_arity {name : String} {paramCount : Nat}
    {constructors : Level → List (String × Expr)}
    (h : approvedDecl name paramCount constructors data = true) :
    data.params.length + data.indices.length = paramCount := by
  simp only [approvedDecl] at h
  split at h
  next =>
    simp only [Bool.and_eq_true, beq_iff_eq, List.isEmpty_iff] at h
    obtain ⟨⟨⟨⟨⟨⟨_, params⟩, indices⟩, _⟩, _⟩, _⟩, _⟩ := h
    simp [params, indices]
  next => cases h

theorem approvedDeclAt_arity {name : String} {arity : Nat}
    (h : approvedDeclAt name arity data = true) :
    data.params.length + data.indices.length = arity := by
  simp only [approvedDeclAt] at h
  split at h
  · exact approvedDecl_arity h
  · exact approvedDecl_arity h
  · exact approvedDecl_arity h
  · cases h

theorem approvedPositiveArgs_valid {env : Env} {name : String} {arity : Nat}
    (h : (approvedPositiveArgs env name arity).isSome = true) :
    approvedNestedFunctorDeclIsValid env name arity = true := by
  simp only [approvedPositiveArgs] at h
  split at h
  next functor found =>
    have same := List.find?_some found
    simp only [Bool.and_eq_true, decide_eq_true_eq] at same
    split at h
    next valid => rwa [same.1, same.2] at valid
    next => cases h
  next => cases h

theorem blockRules_fits {env : Env} (fresh : FreshBlock env block) :
    (blockRules env block).Fits (familyArity block) where
  members := by
    intro name n h
    obtain ⟨family, found, _⟩ := Option.map_eq_some_iff.mp h
    have same : family.name = name := by simpa using List.find?_some found
    exact same ▸ List.mem_map_of_mem (List.mem_of_find?_eq_some found)
  direct := by
    intro e ctxLen h
    obtain ⟨family, hfamily, indices, found⟩ := direct_iff.mp h
    obtain ⟨levels, args, spine, length, _⟩ := directRecursiveIndexArgs_spec found
    exact ⟨family.name, levels, args, spine, by
      rw [familyArity_of_mem fresh.families hfamily, length]⟩
  functor := by
    intro name n member h
    obtain ⟨family, hfamily, rfl⟩ := List.mem_map.mp member
    have valid := approvedPositiveArgs_valid h
    have arity := familyArity_of_mem fresh.families hfamily
    obtain ⟨found, hfound, _⟩ := Option.map_eq_some_iff.mp arity
    have declared : (env.withFamilies block).inductiveAt family.name = some found := by
      rw [Env.withFamilies, inductiveAt_foldl_insertInductive _ fresh.families, hfound]
      rfl
    simp only [approvedNestedFunctorDeclIsValid] at valid
    simp only [Env.inductiveAt] at declared
    split at valid
    next data hdecl =>
      rw [hdecl] at declared
      cases declared
      simp [familyArity, hfound, approvedDeclAt_arity valid]
    next => cases valid

/-! ### Main result -/

/-- At a direct occurrence of a family only the other families are left to exclude. -/
theorem argumentsFree_iff_of_direct (env : Env) (block : MutualInductiveBlock) {visited : Expr}
    {ctxLen : Nat} {family : InductiveDecl} {indices : List Expr}
    (found : directRecursiveIndexArgs family visited ctxLen = .ok indices) :
    (blockRules env block).ArgumentsFree visited ↔
      ∀ sibling ∈ block.inductives, sibling.name ≠ family.name →
        ∀ arg ∈ indices, arg.containsConst sibling.name = false := by
  obtain ⟨levels, args, spine, _, rfl, params, own⟩ := directRecursiveIndexArgs_spec found
  simp only [PositivityRules.ArgumentsFree, spine, PositivityRules.mentions, containsAnyConst,
    blockRules, mutualPositivityRules, List.any_eq_false, List.mem_map, Bool.not_eq_true]
  constructor
  · intro free sibling hsibling _ arg harg
    exact free arg (List.mem_of_mem_drop harg) sibling.name ⟨sibling, hsibling, rfl⟩
  · rintro free arg harg _ ⟨sibling, hsibling, rfl⟩
    rw [← List.take_append_drop family.params.length args, List.mem_append] at harg
    rcases harg with harg | harg
    · obtain ⟨index, rfl⟩ := params arg harg
      rfl
    · by_cases same : sibling.name = family.name
      · rw [same]
        exact own arg (List.mem_of_mem_drop harg)
      · exact free sibling hsibling same arg harg

/-- The fields of an accepted mutual block are strictly positive exactly when no direct
    occurrence has another family in its index arguments and no family of the block is
    passed as an approved functor with a family in its arguments. -/
theorem addMutualInductive_strictlyPositive_iff {env next : Env} {alloc : Allocator}
    {block : MutualInductiveBlock} (h : env.addMutualInductive alloc block = .ok next) :
    (∀ domain index, IsBlockDomain block domain index →
      (blockRules env block).StrictlyPositive (familyArity block) domain) ↔
    NoSiblingInIndices env block ∧ NoFunctorInBlock env block := by
  obtain ⟨fresh, checked⟩ := addMutualInductive_domain h
  have fits := blockRules_fits fresh
  have agree : ∀ domain index, IsBlockDomain block domain index →
      ((blockRules env block).StrictlyPositive (familyArity block) domain ↔
        (blockRules env block).Separated domain index) := by
    intro domain index hdomain
    rcases checked domain index hdomain with free | positive
    · exact ⟨fun _ => PositivityRules.separated_of_free _ free, fun _ => .absent free⟩
    · exact PositivityRules.strictlyPositive_iff _ fits domain positive
  constructor
  · intro positive
    constructor
    · intro domain index hdomain visited ctxLen hvisit family hfamily indices found
      have separated := (agree domain index hdomain).mp (positive domain index hdomain)
      rw [← argumentsFree_iff_of_direct env block found]
      exact separated visited ctxLen hvisit (.inl (direct_iff.mpr ⟨family, hfamily, indices, found⟩))
    · intro domain index hdomain visited ctxLen hvisit functor
      have separated := (agree domain index hdomain).mp (positive domain index hdomain)
      exact separated visited ctxLen hvisit (.inr functor)
  · rintro ⟨siblings, functors⟩ domain index hdomain
    rw [agree domain index hdomain]
    intro visited ctxLen hvisit stop
    rcases stop with direct | functor
    · obtain ⟨family, hfamily, indices, found⟩ := direct_iff.mp direct
      rw [argumentsFree_iff_of_direct env block found]
      exact siblings domain index hdomain visited ctxLen hvisit family hfamily indices found
    · exact functors domain index hdomain visited ctxLen hvisit functor

/-- The block `A : Sort 1` and `B : Sort 1 → Sort 1` with the constructors `a`. -/
def blockWith (a : List ConstructorDecl) : MutualInductiveBlock :=
  let type0 : Level := .succ .zero
  { name := "Block", universeParams := [], universeConstraints := []
    inductives :=
      [⟨"A", [], [], [], [], type0, a, none⟩,
        ⟨"B", [], [], [], [⟨"X", .sort type0⟩], type0, [], none⟩] }

theorem addMutualInductive_strictlyPositive_iff_at_recursive :
    let block := blockWith [⟨"A.mk", .pi "x" (.const "A" []) (.const "A" [])⟩]
    (Env.new.addMutualInductive noReuse block).isOk = true ∧
      ((∀ domain index, IsBlockDomain block domain index →
        (blockRules Env.new block).StrictlyPositive (familyArity block) domain) ↔
      NoSiblingInIndices Env.new block ∧ NoFunctorInBlock Env.new block) := by
  intro block
  have accepted : (Env.new.addMutualInductive noReuse block).isOk = true := by decide +kernel
  refine ⟨accepted, ?_⟩
  cases h : Env.new.addMutualInductive noReuse block with
  | ok next => exact addMutualInductive_strictlyPositive_iff h
  | error e =>
    rw [h] at accepted
    cases accepted

/-- `A.mk : B A → A` is accepted: the index argument of `B` mentions its sibling `A`. -/
theorem addMutualInductive_sibling_in_index :
    ¬ ∀ env alloc block next, Env.addMutualInductive env alloc block = .ok next →
      ∀ domain index, IsBlockDomain block domain index →
        (blockRules env block).StrictlyPositive (familyArity block) domain := by
  intro claim
  let domain : Expr := .app (.const "B" []) (.const "A" [])
  let block := blockWith [⟨"A.mk", .pi "x" domain (.const "A" [])⟩]
  have accepted : (Env.new.addMutualInductive noReuse block).isOk = true := by decide +kernel
  cases h : Env.new.addMutualInductive noReuse block with
  | error e =>
    rw [h] at accepted
    cases accepted
  | ok next =>
    have isDomain : IsBlockDomain block domain 0 :=
      ⟨_, List.mem_cons_self, _, List.mem_cons_self, by simp [peelPiDomains]⟩
    have positive := claim Env.new noReuse block next h domain 0 isDomain
    rcases positive.spine_cases _ rfl with absent | ⟨_, free⟩ | ⟨foreign, _⟩
    · exact absurd absent (by decide +kernel)
    · exact absurd (free (.const "A" []) (by simp)) (by decide +kernel)
    · exact foreign (by decide +kernel)

end NpaCore.Kernel
