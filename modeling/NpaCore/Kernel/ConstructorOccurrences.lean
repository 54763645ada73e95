import NpaCore.Kernel.Evaluation
import NpaCore.Kernel.PositivitySoundness

/-!
# Occurrences of an inductive in its constructors

`check_constructor_decl` walks over the fields of a constructor and, apart from
them, looks at the head and the parameters of the result after reducing it. The
index arguments of the result are never searched for the inductive itself, and what
the reduction drops is not searched either; the check of a direct recursive field,
`direct_recursive_index_args`, does search the arguments.

## Main result

`addInductive_occursPositively_iff`: an accepted inductive occurs only strictly
positively exactly when the results, as they are written, pass that check.
-/

namespace NpaCore.Kernel

open NpaCore.Expr

/-! ### Statement -/

def singleArity (data : InductiveDecl) (name : String) : Option Nat :=
  if name = data.name then some (data.params.length + data.indices.length) else none

/-- The rules under which the constructors of the inductive are checked. -/
def singleRules (env : Env) (data : InductiveDecl) : PositivityRules String String String :=
  singlePositivityRules (env.insertInductive data) data

/-- The inductive occurs in the type of the constructor only at the head of the result and
    in strictly positive places of the fields. -/
structure OccursPositively (env : Env) (data : InductiveDecl) (constructor : ConstructorDecl) :
    Prop where
  params : ∀ domain index, (domain, index) ∈ constructor.ty.peelPiDomains.1.zipIdx →
    index < data.params.length → domain.containsConst data.name = false
  fields : ∀ domain index, (domain, index) ∈ constructor.ty.peelPiDomains.1.zipIdx →
    data.params.length ≤ index →
      (singleRules env data).StrictlyPositive (singleArity data) domain
  result : ∃ levels args, constructor.ty.peelPiDomains.2 = apps (.const data.name levels) args ∧
    ∀ arg ∈ args, arg.containsConst data.name = false

/-! ### Applications of an inductive do not reduce -/

variable {data : InductiveDecl} {name : String}

theorem resolveRecursor_inductive {env : Env}
    (declared : env.inductiveAt name = some data) (levels : List Level) (args : List Expr) :
    resolveRecursor env (apps (.const name levels) args) = none := by
  simp only [resolveRecursor, collectApps_apps_const]
  simp only [Env.inductiveAt] at declared
  split at declared
  next found => rw [found]
  next => cases declared

theorem unfoldDefinition_inductive {env : Env}
    (declared : env.inductiveAt name = some data) (levels : List Level) :
    unfoldDefinition env name levels = none := by
  simp only [unfoldDefinition]
  simp only [Env.inductiveAt] at declared
  split at declared
  next found => rw [found]
  next => cases declared

theorem not_isLam_apps_const (name : String) (levels : List Level) (args : List Expr) :
    ¬ IsLam (apps (.const name levels) args) := by
  induction args using List.reverseRecOn with
  | nil => exact fun h => h
  | append_singleton front last _ =>
    rw [apps_concat]
    exact fun h => h

theorem evaluates_inductive {env : Env} {ctx : Ctx}
    (declared : env.inductiveAt name = some data) (levels : List Level) (args : List Expr) :
    Evaluates env ctx (apps (.const name levels) args) (1 + args.length)
      (apps (.const name levels) args) := by
  induction args using List.reverseRecOn with
  | nil => exact .const (unfoldDefinition_inductive declared levels)
  | append_singleton front last ih =>
    have stuck := resolveRecursor_inductive declared levels (front ++ [last])
    rw [apps_concat] at stuck ⊢
    rw [List.length_append]
    have step := Evaluates.neutral ih (not_isLam_apps_const name levels front) stuck
    rwa [Nat.add_comm front.length]

theorem Env.whnf_inductive {env : Env} {alloc : Allocator} {ctx : Ctx} {delta : List String}
    (declared : env.inductiveAt name = some data)
    {levels : List Level} {args : List Expr} {value : Expr}
    (h : env.whnf alloc ctx delta (apps (.const name levels) args) = .ok value) :
    value = apps (.const name levels) args := by
  obtain ⟨cost, _, evaluates⟩ := Env.whnfWithFuel_eq_ok.mp h
  exact (evaluates.deterministic (evaluates_inductive declared levels args)).1

/-! ### The approved declarations themselves -/

/-- A constant, variable or sort, or one applied to variables. -/
def isPlain : Expr → Bool
  | .sort _ => true
  | .bvar _ => true
  | .const _ _ => true
  | .app fn (.bvar _) => isPlain fn
  | _ => false

theorem isPlain_args {e : Expr} (h : isPlain e = true) :
    ∀ arg ∈ e.collectApps.2, ∃ index, arg = .bvar index := by
  fun_induction isPlain e with
  | case4 fn index ih =>
    intro arg mem
    rcases List.mem_append.mp mem with mem | mem
    · exact ih h arg mem
    · exact ⟨index, List.mem_singleton.mp mem⟩
  | case1 | case2 | case3 => simp [collectApps]
  | case5 => cases h

theorem isPlain_of_exprEq {a b : Expr} (same : exprEqIgnoringBinderNames a b = true)
    (h : isPlain b = true) : isPlain a = true := by
  induction a generalizing b with
  | sort _ | bvar _ | const _ _ => rfl
  | app lhsFn lhsArg ihFn _ =>
    cases b with
    | app rhsFn rhsArg =>
      obtain ⟨sameFn, sameArg⟩ := Bool.and_eq_true_iff.mp same
      cases rhsArg with
      | bvar index =>
        cases lhsArg with
        | bvar other => exact ihFn sameFn h
        | sort _ | const _ _ | app _ _ | lam _ _ _ | pi _ _ _ => cases sameArg
      | sort _ | const _ _ | app _ _ | lam _ _ _ | pi _ _ _ => cases h
    | sort _ | bvar _ | const _ _ | lam _ _ _ | pi _ _ _ => cases same
  | lam _ _ _ _ _ =>
    cases b with
    | lam _ _ _ => cases h
    | sort _ | bvar _ | const _ _ | app _ _ | pi _ _ _ => cases same
  | pi _ _ _ _ _ =>
    cases b with
    | pi _ _ _ => cases h
    | sort _ | bvar _ | const _ _ | app _ _ | lam _ _ _ => cases same

theorem isPlain_domains_of_exprEq {a b : Expr} (same : exprEqIgnoringBinderNames a b = true)
    (h : b.peelPiDomains.1.all isPlain = true) : a.peelPiDomains.1.all isPlain = true := by
  induction a generalizing b with
  | pi binder ty body _ ih =>
    cases b with
    | pi otherBinder otherTy otherBody =>
      obtain ⟨sameTy, sameBody⟩ := Bool.and_eq_true_iff.mp same
      simp only [peelPiDomains, List.all_cons, Bool.and_eq_true] at h ⊢
      exact ⟨isPlain_of_exprEq sameTy h.1, ih sameBody h.2⟩
    | sort _ | bvar _ | const _ _ | app _ _ | lam _ _ _ => cases same
  | sort _ | bvar _ | const _ _ | app _ _ _ _ | lam _ _ _ _ _ => rfl

theorem approvedDecl_plain {paramCount : Nat} {constructors : Level → List (String × Expr)}
    (plain : ∀ u, ∀ expected ∈ constructors u, expected.2.peelPiDomains.1.all isPlain = true)
    (h : approvedDecl name paramCount constructors data = true) :
    ∀ constructor ∈ data.constructors, constructor.ty.peelPiDomains.1.all isPlain = true := by
  simp only [approvedDecl] at h
  split at h
  next universeParam _ =>
    simp only [Bool.and_eq_true, beq_iff_eq, List.all_eq_true, decide_eq_true_eq] at h
    obtain ⟨⟨⟨⟨_, length⟩, _⟩, _⟩, same⟩ := h
    intro constructor mem
    obtain ⟨i, hi, rfl⟩ := List.getElem_of_mem mem
    have pair : (data.constructors[i], (constructors (.param universeParam))[i]) ∈
        data.constructors.zip (constructors (.param universeParam)) := by
      rw [List.mem_iff_getElem]
      exact ⟨i, by rw [List.length_zip]; omega, by rw [List.getElem_zip]⟩
    exact isPlain_domains_of_exprEq (same _ pair).2 (plain _ _ (List.getElem_mem _))
  next => cases h

theorem approvedDeclAt_plain {arity : Nat} (h : approvedDeclAt name arity data = true) :
    ∀ constructor ∈ data.constructors, constructor.ty.peelPiDomains.1.all isPlain = true := by
  simp only [approvedDeclAt] at h
  split at h
  · exact approvedDecl_plain (by simp [listConstructors, peelPiDomains, isPlain]) h
  · exact approvedDecl_plain (by simp [optionConstructors, peelPiDomains, isPlain]) h
  · exact approvedDecl_plain (by simp [prodConstructors, peelPiDomains, isPlain, apps]) h
  · cases h

/-- The walk over a plain domain stays in plain terms. -/
theorem isPlain_of_visits {rules : PositivityRules String String String} {e visited : Expr}
    {ctxLen visitedLen : Nat} (h : rules.Visits e ctxLen visited visitedLen)
    (plain : isPlain e = true) : isPlain visited = true := by
  induction h with
  | here => exact plain
  | codomain => cases plain
  | argument _ spine _ mem _ _ ih =>
    have inArgs := List.fst_mem_of_mem_zipIdx mem
    have args := isPlain_args plain
    rw [spine] at args
    obtain ⟨index, rfl⟩ := args _ inArgs
    exact ih rfl

/-! ### Fields -/

variable {constructor : ConstructorDecl}

section Fields

variable {env : Env} {data : InductiveDecl}

theorem singleRules_mentions (e : Expr) :
    (singleRules env data).mentions e = e.containsConst data.name := by
  simp [PositivityRules.mentions, singleRules, singlePositivityRules, containsAnyConst]

theorem inductiveAt_insertInductive_self :
    (env.insertInductive data).inductiveAt data.name = some data := by
  simp [Env.inductiveAt, Env.insertInductive]

theorem singleRules_functor_own {n : Nat}
    (h : ((singleRules env data).functor data.name n).isSome = true) :
    approvedDeclAt data.name n data = true := by
  have valid := approvedPositiveArgs_valid h
  have declared : (env.insertInductive data).inductiveAt data.name = some data :=
    inductiveAt_insertInductive_self
  simp only [approvedNestedFunctorDeclIsValid] at valid
  simp only [Env.inductiveAt] at declared
  split at valid
  next found hdecl =>
    rw [hdecl] at declared
    cases declared
    exact valid
  next => cases valid

theorem singleRules_direct {e : Expr} {ctxLen : Nat}
    (h : (singleRules env data).direct e ctxLen = true) :
    ∃ levels args, e.collectApps = (.const data.name levels, args) ∧
      args.length = data.params.length + data.indices.length ∧
      ∀ arg ∈ args, arg.containsConst data.name = false := by
  change (directRecursiveIndexArgs data e ctxLen).isOk = true at h
  cases found : directRecursiveIndexArgs data e ctxLen with
  | error e =>
    rw [found] at h
    cases h
  | ok indices =>
    obtain ⟨levels, args, spine, length, _, _, own⟩ := directRecursiveIndexArgs_spec found
    exact ⟨levels, args, spine, length, own⟩

theorem singleRules_fits : (singleRules env data).Fits (singleArity data) where
  members := by
    intro name n h
    simp only [singleArity] at h
    split at h
    next same => exact List.mem_singleton.mpr same
    next => cases h
  direct := by
    intro e ctxLen h
    obtain ⟨levels, args, spine, length, _⟩ := singleRules_direct h
    exact ⟨data.name, levels, args, spine, by simp [singleArity, length]⟩
  functor := by
    intro name n member h
    cases List.mem_singleton.mp member
    simp [singleArity, approvedDeclAt_arity (singleRules_functor_own h)]

/-- The walk over a field of the inductive only passes applications of it to arguments that
    do not mention it: a direct occurrence is searched, and an inductive that is itself the
    approved functor has no other applications in its fields. -/
theorem singleRules_separated (mem : constructor ∈ data.constructors)
    {domain : Expr} (isDomain : domain ∈ constructor.ty.peelPiDomains.1) (index : Nat) :
    (singleRules env data).Separated domain index := by
  intro visited visitedLen visits stop
  rcases stop with direct | ⟨name, levels, args, spine, member, isFunctor⟩
  · obtain ⟨levels, args, spine, _, own⟩ := singleRules_direct direct
    intro arg harg
    rw [spine] at harg
    rw [singleRules_mentions]
    exact own arg harg
  · cases List.mem_singleton.mp member
    have plain := approvedDeclAt_plain (singleRules_functor_own isFunctor) constructor mem
    have here := isPlain_of_visits visits (List.all_eq_true.mp plain domain isDomain)
    intro arg harg
    obtain ⟨position, rfl⟩ := isPlain_args here arg harg
    rfl

end Fields

/-! ### What the check of a constructor gives -/

theorem checkConstructorDomainPositive_spec {candidate env : Env}
    {constructor : String} {index : Nat} {domain : Expr}
    (same : ∀ name, candidate.inductiveAt name = (env.insertInductive data).inductiveAt name)
    (h : checkConstructorDomainPositive candidate data constructor index domain = .ok ()) :
    domain.containsConst data.name = false ∨ (data.params.length ≤ index ∧
      (singleRules env data).occurrencesStrictlyPositive domain index = true) := by
  have rules : singlePositivityRules candidate data = singleRules env data := by
    simp only [singleRules, singlePositivityRules, approvedPositiveArgs_congr same]
  simp only [checkConstructorDomainPositive, Result.ensure_eq_ok, Bool.or_eq_true,
    Bool.and_eq_true, recursiveOccurrencesStrictlyPositive, rules, decide_eq_true_eq,
    Bool.not_eq_true'] at h
  exact h.symm

/-- What is left of the check of a result that is an application of the inductive. -/
theorem checkConstructorResult_direct {domainCount : Nat} {levels : List Level} {args : List Expr}
    (h : checkConstructorResult data constructor domainCount
      (apps (.const data.name levels) args) = .ok ())
    (free : ∀ arg ∈ args, arg.containsConst data.name = false) :
    isDirectRecursiveDomain data (apps (.const data.name levels) args) domainCount = true := by
  simp only [checkConstructorResult, Result.bind_eq_ok, Result.okOr_eq_ok, Result.ensure_eq_ok,
    Result.forEach_eq_ok, decide_eq_true_eq] at h
  obtain ⟨found, family, _, enough, params⟩ := h
  obtain ⟨⟨_, spine⟩, _⟩ := familyArgs_spec family
  rw [collectApps_apps_const] at spine
  cases spine
  have canonical : ensureCanonicalArgs domainCount 0 (fun _ => .invalidInductive data.name)
      (args.take data.params.length) = .ok () := by
    simp only [ensureCanonicalArgs, Result.forEach_eq_ok, Result.bind_eq_ok, Result.ensure_eq_ok,
      decide_eq_true_eq]
    rintro ⟨arg, index⟩ mem
    have below : index < data.params.length := by
      have bound := List.snd_lt_of_mem_zipIdx mem
      rw [List.length_take] at bound
      omega
    refine ⟨.bvar (domainCount - 1 - index), ?_, params (arg, index) mem⟩
    simp only [bvarForAbs, Nat.zero_add]
    rw [if_pos (by omega)]
  have all : (args.all fun arg => !arg.containsConst data.name) = true :=
    List.all_eq_true.mpr fun arg mem => by simp [free arg mem]
  have direct : directRecursiveIndexArgs data (apps (.const data.name levels) args) domainCount =
      .ok (args.drop data.params.length) := by
    simp only [directRecursiveIndexArgs, Result.bind_eq_ok, Result.okOr_eq_ok,
      Result.ensure_eq_ok, Except.ok.injEq]
    exact ⟨args, family, (), canonical, (), all, rfl⟩
  rw [isDirectRecursiveDomain, direct]
  rfl

/-- The result of a constructor as it is written passes the check of a recursive field. -/
def ResultIsDirect (data : InductiveDecl) (constructor : ConstructorDecl) : Prop :=
  isDirectRecursiveDomain data constructor.ty.peelPiDomains.2
    constructor.ty.peelPiDomains.1.length = true

theorem checkConstructorDecl_occursPositively_iff {candidate env : Env} {alloc : Allocator}
    {universeContext : UniverseContext}
    (same : ∀ name, candidate.inductiveAt name = (env.insertInductive data).inductiveAt name)
    (mem : constructor ∈ data.constructors)
    (h : checkConstructorDecl candidate alloc data constructor universeContext = .ok ()) :
    OccursPositively env data constructor ↔ ResultIsDirect data constructor := by
  simp only [checkConstructorDecl, checkConstructorWith, Result.bind_eq_ok,
    Result.forEach_eq_ok] at h
  obtain ⟨_, _, _, positive, whnf, reduced, _, resultChecked, _⟩ := h
  have domains : ∀ domain index, (domain, index) ∈ constructor.ty.peelPiDomains.1.zipIdx →
      domain.containsConst data.name = false ∨ (data.params.length ≤ index ∧
        (singleRules env data).occurrencesStrictlyPositive domain index = true) :=
    fun domain index hmem => checkConstructorDomainPositive_spec same (positive (domain, index) hmem)
  constructor
  · rintro ⟨_, _, levels, args, hresult, free⟩
    rw [ResultIsDirect, hresult]
    rw [hresult] at reduced
    have declared : candidate.inductiveAt data.name = some data :=
      (same data.name).trans inductiveAt_insertInductive_self
    rw [Env.whnf_inductive declared reduced] at resultChecked
    exact checkConstructorResult_direct resultChecked free
  · intro direct
    refine ⟨?_, ?_, ?_⟩
    · intro domain index hmem below
      rcases domains domain index hmem with free | ⟨field, _⟩
      · exact free
      · omega
    · intro domain index hmem _
      rcases domains domain index hmem with free | ⟨_, accepted⟩
      · exact .absent (by rwa [singleRules_mentions])
      · rw [(singleRules env data).strictlyPositive_iff singleRules_fits domain accepted]
        exact singleRules_separated mem (List.fst_mem_of_mem_zipIdx hmem) index
    · have visited : (singleRules env data).direct constructor.ty.peelPiDomains.2
          constructor.ty.peelPiDomains.1.length = true := direct
      obtain ⟨levels, args, spine, _, own⟩ := singleRules_direct visited
      exact ⟨levels, args, PositivityRules.eq_apps_of_spine spine, own⟩

/-! ### Main result -/

theorem addInductive_occursPositively_iff {env next : Env} {alloc : Allocator}
    {data : InductiveDecl} (h : env.addInductive alloc data = .ok next) :
    (∀ constructor ∈ data.constructors, OccursPositively env data constructor) ↔
      ∀ constructor ∈ data.constructors, ResultIsDirect data constructor := by
  simp only [Env.addInductive, Result.bind_eq_ok] at h
  obtain ⟨universeContext, _, _, _, _, hfresh, _, _, _, hconstructors, _⟩ := h
  obtain ⟨nodup, fresh⟩ := ensureNamesFresh_spec hfresh
  have absent : ∀ constructor ∈ data.constructors,
      (env.insertInductive data).inductiveAt constructor.name = none := by
    intro constructor mem
    have other : constructor.name ≠ data.name := by
      intro clash
      rw [List.append_assoc, List.singleton_append, List.nodup_cons] at nodup
      exact nodup.1 (List.mem_append_left _ (clash ▸ List.mem_map_of_mem mem))
    have unknown := (fresh constructor.name (by
      simp only [List.mem_append, List.mem_map_of_mem mem, or_true, true_or])).2
    simp [Env.inductiveAt, Env.insertInductive, other, unknown]
  -- the constructors inserted before this one do not change the inductives
  have keeps : ∀ constructor ∈ data.constructors, ∀ before after,
      (do
        checkConstructorDecl before alloc data constructor universeContext
        .ok (before.insertConstructor data constructor) : Result Env) = .ok after →
      (∀ name, before.inductiveAt name = (env.insertInductive data).inductiveAt name) →
      ∀ name, after.inductiveAt name = (env.insertInductive data).inductiveAt name := by
    intro constructor mem before after step same name
    simp only [Result.bind_eq_ok, Except.ok.injEq] at step
    obtain ⟨_, _, rfl⟩ := step
    rw [inductiveAt_insertConstructor ((same _).trans (absent constructor mem)), same]
  have each : ∀ constructor ∈ data.constructors,
      (OccursPositively env data constructor ↔ ResultIsDirect data constructor) := by
    intro constructor mem
    obtain ⟨here, _, same, step⟩ := Result.foldEach_step data.constructors keeps hconstructors
      (fun _ => rfl) mem
    simp only [Result.bind_eq_ok, Except.ok.injEq] at step
    obtain ⟨_, checked, _⟩ := step
    exact checkConstructorDecl_occursPositively_iff same mem checked
  exact forall₂_congr each

/-- `I : Sort 1 → Sort 1` with one constructor that has no fields and the given result. -/
def indexedWith (result : Expr) : InductiveDecl :=
  let type0 : Level := .succ .zero
  ⟨"I", [], [], [], [⟨"X", .sort type0⟩], type0, [⟨"I.mk", result⟩], none⟩

theorem addInductive_occursPositively_iff_at_prop :
    let data := indexedWith (.app (.const "I" []) (.sort .zero))
    (Env.new.addInductive noReuse data).isOk = true ∧
      ((∀ constructor ∈ data.constructors, OccursPositively Env.new data constructor) ↔
        ∀ constructor ∈ data.constructors, ResultIsDirect data constructor) := by
  intro data
  have accepted : (Env.new.addInductive noReuse data).isOk = true := by decide +kernel
  refine ⟨accepted, ?_⟩
  cases h : Env.new.addInductive noReuse data with
  | ok next => exact addInductive_occursPositively_iff h
  | error e =>
    rw [h] at accepted
    cases accepted

/-- `I.mk : I (I Prop)` is accepted: the index argument of the result mentions `I`. -/
theorem addInductive_own_name_in_result_index :
    ¬ ∀ env alloc data next, Env.addInductive env alloc data = .ok next →
      ∀ constructor ∈ data.constructors, OccursPositively env data constructor := by
  intro claim
  let inner : Expr := .app (.const "I" []) (.sort .zero)
  let data := indexedWith (.app (.const "I" []) inner)
  have accepted : (Env.new.addInductive noReuse data).isOk = true := by decide +kernel
  cases h : Env.new.addInductive noReuse data with
  | error e =>
    rw [h] at accepted
    cases accepted
  | ok next =>
    obtain ⟨levels, args, result, free⟩ :=
      (claim Env.new noReuse data next h _ List.mem_cons_self).result
    have spine := congrArg collectApps result
    rw [collectApps_apps_const] at spine
    cases spine
    exact absurd (free inner (by simp [inner])) (by decide)

end NpaCore.Kernel
