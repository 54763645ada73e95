import NpaCore.Kernel.Decl

/-!
# Telescopes of inductive declarations

The functions of `env.rs` that read the telescopes of an inductive declaration:
recursive fields and their index arguments, the minor premises a recursor must
have, and the positions of its premises. Positions counted from the outside are
called `abs`, as in the source.
-/

namespace NpaCore.Kernel

open NpaCore.Expr NpaCore.Level

/-! ### Binder positions -/

def escapes (what index : String) (ctxLen : Nat) : Error :=
  .invalidInductive (what ++ " " ++ index ++ " escapes context of length " ++ toString ctxLen)

def bvarForAbs (ctxLen abs : Nat) : Result Expr :=
  if abs < ctxLen then .ok (.bvar (ctxLen - 1 - abs))
  else .error (escapes "binder index" (toString abs) ctxLen)

def remapBvars : Expr → Nat → Nat → List Nat → Result Expr
  | .sort level, _, _, _ => .ok (.sort level)
  | .bvar index, sourceCtxLen, targetCtxLen, sourceToTarget => do
    Result.ensure (index < sourceCtxLen) (escapes "binder index" (toString index) sourceCtxLen)
    let targetAbs ← Result.okOr sourceToTarget[sourceCtxLen - 1 - index]?
      (.invalidInductive ("binder index " ++ toString index ++ " has no target in recursor minor"))
    bvarForAbs targetCtxLen targetAbs
  | .const name levels, _, _, _ => .ok (.const name levels)
  | .app fn arg, sourceCtxLen, targetCtxLen, sourceToTarget => do
    let fn ← remapBvars fn sourceCtxLen targetCtxLen sourceToTarget
    let arg ← remapBvars arg sourceCtxLen targetCtxLen sourceToTarget
    .ok (.app fn arg)
  | .lam binder ty body, sourceCtxLen, targetCtxLen, sourceToTarget => do
    let ty ← remapBvars ty sourceCtxLen targetCtxLen sourceToTarget
    let body ← remapBvars body (sourceCtxLen + 1) (targetCtxLen + 1)
      (sourceToTarget ++ [targetCtxLen])
    .ok (.lam binder ty body)
  | .pi binder ty body, sourceCtxLen, targetCtxLen, sourceToTarget => do
    let ty ← remapBvars ty sourceCtxLen targetCtxLen sourceToTarget
    let body ← remapBvars body (sourceCtxLen + 1) (targetCtxLen + 1)
      (sourceToTarget ++ [targetCtxLen])
    .ok (.pi binder ty body)

/-- The constructor arguments, outermost first, for the variables free in `expr`. -/
def instantiateConstructorArgsAt (argsByAbs : List Expr) : Expr → Nat → Result Expr
  | .sort level, _ => .ok (.sort level)
  | .bvar index, depth =>
    if index < depth then .ok (.bvar index)
    else do
      let outerIndex := index - depth
      let arg ← Result.okOr
        (if outerIndex < argsByAbs.length then argsByAbs[argsByAbs.length - 1 - outerIndex]?
          else none)
        (.invalidInductive
          ("binder index " ++ toString index ++ " escapes constructor argument context"))
      Expr.shift arg (asI32 depth) 0
  | .const name levels, _ => .ok (.const name levels)
  | .app fn arg, depth => do
    let fn ← instantiateConstructorArgsAt argsByAbs fn depth
    let arg ← instantiateConstructorArgsAt argsByAbs arg depth
    .ok (.app fn arg)
  | .lam binder ty body, depth => do
    let ty ← instantiateConstructorArgsAt argsByAbs ty depth
    let body ← instantiateConstructorArgsAt argsByAbs body (depth + 1)
    .ok (.lam binder ty body)
  | .pi binder ty body, depth => do
    let ty ← instantiateConstructorArgsAt argsByAbs ty depth
    let body ← instantiateConstructorArgsAt argsByAbs body (depth + 1)
    .ok (.pi binder ty body)

def instantiateConstructorArgs (expr : Expr) (argsByAbs : List Expr) : Result Expr :=
  instantiateConstructorArgsAt argsByAbs expr 0

/-! ### Occurrences of a family -/

/-- `data.universe_params` as levels. -/
def universeArgs (params : List String) : List Level := params.map .param

/-- The arguments of an occurrence of the family at its own universe parameters and with
    all its parameters and indices. -/
def familyArgs (data : InductiveDecl) (e : Expr) : Option (List Expr) :=
  match e.collectApps with
  | (.const name levels, args) =>
    if name = data.name && levelsEq levels (universeArgs data.universeParams)
        && args.length == data.params.length + data.indices.length then some args
    else none
  | _ => none

/-- Each argument is the variable at the given position of the context. -/
def ensureCanonicalArgs (ctxLen absStart : Nat) (error : Nat → Error) (args : List Expr) :
    Result Unit :=
  Result.forEach args.zipIdx fun (arg, index) => do
    let expected ← bvarForAbs ctxLen (absStart + index)
    Result.ensure (arg = expected) (error index)

def directRecursiveIndexArgs (data : InductiveDecl) (domain : Expr) (ctxLen : Nat) :
    Result (List Expr) := do
  let args ← Result.okOr (familyArgs data domain) (.invalidInductive data.name)
  ensureCanonicalArgs ctxLen 0 (fun _ => .invalidInductive data.name)
    (args.take data.params.length)
  Result.ensure (args.all fun arg => !arg.containsConst data.name) (.invalidInductive data.name)
  .ok (args.drop data.params.length)

def isDirectRecursiveDomain (data : InductiveDecl) (domain : Expr) (ctxLen : Nat) : Bool :=
  (directRecursiveIndexArgs data domain ctxLen).isOk

theorem ensureCanonicalArgs_bvar {ctxLen absStart : Nat} {error : Nat → Error} {args : List Expr}
    (h : ensureCanonicalArgs ctxLen absStart error args = .ok ()) :
    ∀ arg ∈ args, ∃ index, arg = .bvar index := by
  simp only [ensureCanonicalArgs, Result.forEach_eq_ok, Result.bind_eq_ok,
    Result.ensure_eq_ok] at h
  intro arg harg
  obtain ⟨i, hi, rfl⟩ := List.getElem_of_mem harg
  obtain ⟨expected, hexpected, same⟩ := h (args[i], i) (List.mk_mem_zipIdx_iff_getElem?.mpr (by simp))
  simp only [decide_eq_true_eq] at same
  simp only [bvarForAbs] at hexpected
  split at hexpected
  · cases hexpected
    exact ⟨_, same⟩
  · cases hexpected

theorem familyArgs_spec {data : InductiveDecl} {e : Expr} {args : List Expr}
    (h : familyArgs data e = some args) :
    (∃ levels, e.collectApps = (.const data.name levels, args)) ∧
      args.length = data.params.length + data.indices.length := by
  simp only [familyArgs] at h
  split at h
  next name levels found spine =>
    split at h
    next fits =>
      cases h
      simp only [Bool.and_eq_true, decide_eq_true_eq, beq_iff_eq] at fits
      obtain ⟨⟨rfl, _⟩, length⟩ := fits
      exact ⟨⟨levels, spine⟩, length⟩
    next => cases h
  next => cases h

/-- A direct occurrence is the family applied to variables for its parameters and to
    index arguments, none of which mention the family itself. -/
theorem directRecursiveIndexArgs_spec {data : InductiveDecl} {domain : Expr} {ctxLen : Nat}
    {indices : List Expr} (h : directRecursiveIndexArgs data domain ctxLen = .ok indices) :
    ∃ levels args, domain.collectApps = (.const data.name levels, args) ∧
      args.length = data.params.length + data.indices.length ∧
      indices = args.drop data.params.length ∧
      (∀ arg ∈ args.take data.params.length, ∃ index, arg = .bvar index) ∧
      ∀ arg ∈ args, arg.containsConst data.name = false := by
  simp only [directRecursiveIndexArgs, Result.bind_eq_ok, Result.okOr_eq_ok, Result.ensure_eq_ok,
    Except.ok.injEq] at h
  obtain ⟨args, hargs, _, hparams, _, own, rfl⟩ := h
  obtain ⟨⟨levels, spine⟩, length⟩ := familyArgs_spec hargs
  refine ⟨levels, args, spine, length, rfl, ensureCanonicalArgs_bvar hparams, ?_⟩
  intro arg harg
  simpa using List.all_eq_true.mp own arg harg

/-- The families tried one after another; the first that fits gives the answer. -/
def firstDirectRecursive {α : Type} (domain : Expr) (ctxLen : Nat) :
    List (α × InductiveDecl) → Option (α × List Expr)
  | [] => none
  | (label, data) :: rest =>
    match directRecursiveIndexArgs data domain ctxLen with
    | .ok indices => some (label, indices)
    | .error _ => firstDirectRecursive domain ctxLen rest

def directMutualRecursiveIndexArgsInBlock (block : MutualInductiveBlock) (domain : Expr)
    (ctxLen : Nat) : Result (Nat × List Expr) :=
  Result.okOr
    (firstDirectRecursive domain ctxLen (block.inductives.zipIdx.map fun (data, i) => (i, data)))
    (.invalidInductive (block.name ++ " domain is not a direct mutual recursive occurrence"))

/-- `direct_mutual_recursive_index_args`: as above, over the names of a stored group; a
    name without an inductive ends the loop with that error. -/
def directMutualRecursiveIndexArgs (env : Env) (domain : Expr) (ctxLen : Nat) :
    List String → Result (String × List Expr)
  | [] => .error (.invalidInductive "not a direct mutual recursive domain")
  | name :: rest => do
    let data ← env.inductiveData name
    match directRecursiveIndexArgs data domain ctxLen with
    | .ok indices => .ok (name, indices)
    | .error _ => directMutualRecursiveIndexArgs env domain ctxLen rest

def constructorResultIndexArgs (data : InductiveDecl) (constructor : ConstructorDecl)
    (result : Expr) : Result (List Expr) := do
  let args ← Result.okOr (familyArgs data result)
    (.badConstructorResult data.name constructor.name result)
  .ok (args.drop data.params.length)

/-! ### The type of an inductive and the layout of its recursor -/

def inductiveType (data : InductiveDecl) : Expr :=
  (data.params ++ data.indices).foldr (fun binder body => .pi binder.name binder.ty body)
    (.sort data.sort)

def generatedRecursorRules (data : InductiveDecl) : RecursorRules where
  minorStart := data.params.length + 1
  majorIndex := data.params.length + 1 + data.constructors.length + data.indices.length

def mutualConstructorCount (block : MutualInductiveBlock) : Nat :=
  block.inductives.foldl (fun count data => count + data.constructors.length) 0

def generatedMutualRecursorRules (block : MutualInductiveBlock) (data : InductiveDecl) :
    RecursorRules where
  minorStart := data.params.length + block.inductives.length
  majorIndex := data.params.length + block.inductives.length + mutualConstructorCount block +
    data.indices.length

/-- `mutual_constructor_offset`, over the names still to visit. -/
def mutualConstructorOffset (env : Env) (target : String) (offset : Nat) :
    List String → Result Nat
  | [] => .error (.invalidInductive (target ++ " is not in mutual group"))
  | name :: rest =>
    if name = target then .ok offset
    else do
      let data ← env.inductiveData name
      mutualConstructorOffset env target (offset + data.constructors.length) rest

def mutualFamilyIndex (block : MutualInductiveBlock) (name : String) : Result Nat :=
  Result.okOr (block.inductives.findIdx? fun data => data.name = name)
    (.invalidInductive (name ++ " is not in mutual block"))

def recursorPrefixCtx (domains : List Expr) : Ctx := ⟨domains⟩

def motiveApp (ctxLen motiveAbs : Nat) (indexArgs : List Expr) (target : Expr) : Result Expr := do
  let motive ← bvarForAbs ctxLen motiveAbs
  .ok (apps motive (indexArgs ++ [target]))

/-! ### Minor premises -/

/-- The state of the loop over the fields of a constructor. -/
structure MinorState where
  sourceToTarget : List Nat
  targetCtxLen : Nat
  expectedDomains : List Expr
  fieldAbs : List Nat

/-- One field: its domain, and after it the motive at the field when the field is
    recursive. `recursive` gives the position of that motive and the index arguments. -/
def minorField (recursive : Expr → Nat → Option (Nat × List Expr)) (paramCount : Nat)
    (state : MinorState) (field : Expr × Nat) : Result MinorState := do
  let (fieldDomain, fieldIndex) := field
  let sourceCtxLen := paramCount + fieldIndex
  let domain ← remapBvars fieldDomain sourceCtxLen state.targetCtxLen state.sourceToTarget
  let next : MinorState :=
    { sourceToTarget := state.sourceToTarget ++ [state.targetCtxLen]
      targetCtxLen := state.targetCtxLen + 1
      expectedDomains := state.expectedDomains ++ [domain]
      fieldAbs := state.fieldAbs ++ [state.targetCtxLen] }
  match recursive fieldDomain sourceCtxLen with
  | none => .ok next
  | some (motiveAbs, indexArgs) => do
    let indexArgs ← Result.collect indexArgs fun arg =>
      remapBvars arg sourceCtxLen next.targetCtxLen next.sourceToTarget
    let hypothesis ← motiveApp next.targetCtxLen motiveAbs indexArgs (.bvar 0)
    .ok { next with
      expectedDomains := next.expectedDomains ++ [hypothesis]
      targetCtxLen := next.targetCtxLen + 1 }

/-- The body shared by `expected_minor_type` and `expected_mutual_minor_type`. -/
def minorType (recursive : Expr → Nat → Option (Nat × List Expr)) (owner : InductiveDecl)
    (constructor : ConstructorDecl) (prefixLen motiveAbs : Nat) : Result Expr := do
  let (domains, constructorResult) := constructor.ty.peelPiDomains
  let paramCount := owner.params.length
  Result.ensure (paramCount ≤ domains.length)
    (.invalidInductive (constructor.name ++ " constructor is missing parameter binders"))
  let resultIndices ← constructorResultIndexArgs owner constructor constructorResult
  let state ← Result.foldEach (domains.drop paramCount).zipIdx
    (MinorState.mk (List.range paramCount) prefixLen [] []) (minorField recursive paramCount)
  let constructorArgs ← Result.collect (List.range paramCount ++ state.fieldAbs) fun abs =>
    bvarForAbs state.targetCtxLen abs
  let constructorValue :=
    apps (.const constructor.name (universeArgs owner.universeParams)) constructorArgs
  let resultIndexArgs ← Result.collect resultIndices fun arg =>
    remapBvars arg domains.length state.targetCtxLen state.sourceToTarget
  let result ← motiveApp state.targetCtxLen motiveAbs resultIndexArgs constructorValue
  .ok (mkPiFromDomains "_" state.expectedDomains result)

def expectedMinorType (data : InductiveDecl) (constructor : ConstructorDecl)
    (constructorIndex : Nat) : Result Expr :=
  let paramCount := data.params.length
  minorType
    (fun domain ctxLen =>
      ((directRecursiveIndexArgs data domain ctxLen).toOption).map fun args => (paramCount, args))
    data constructor (paramCount + 1 + constructorIndex) paramCount

def expectedMutualMinorType (block : MutualInductiveBlock) (familyIndex : Nat)
    (constructor : ConstructorDecl) (constructorIndex : Nat) : Result Expr := do
  let owner ← Result.okOr block.inductives[familyIndex]? (.invalidInductive
    (block.name ++ " constructor family index " ++ toString familyIndex ++ " is out of range"))
  let paramCount := owner.params.length
  minorType
    (fun domain ctxLen =>
      (directMutualRecursiveIndexArgsInBlock block domain ctxLen).toOption.map
        fun (family, args) => (paramCount + family, args))
    owner constructor (paramCount + block.inductives.length + constructorIndex)
    (paramCount + familyIndex)

/-! ### Constraint levels of a declaration -/

def declarationConstraintLevels (name : String) (params : List String) (levels : List Level)
    (constraintParams : List String) : Result (List Level) :=
  Result.collect constraintParams fun constraintParam => do
    let index ← Result.okOr (params.findIdx? (· = constraintParam))
      (.unknownUniverseParam constraintParam)
    Result.okOr levels[index]? (.badUniverseArity name params.length levels.length)

end NpaCore.Kernel
