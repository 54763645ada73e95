import NpaCore.Syntax.ClosedTerms
import NpaCore.Kernel.StoredTerms

/-!
# Stored terms are closed

Inference looks every variable up in the local context, so a term that it accepts has no other
free variables. Admission infers what it stores in the empty context.

## Main results

* `inferTerm_closed`: what inference accepts is closed in the local context.
* `BuiltFrom.closed`: the terms that an environment stores are closed.
-/

namespace NpaCore.Kernel

open NpaCore.Expr

/-! ### Inference -/

section Infer

variable {env : Env} {universeContext : UniverseContext}

theorem Ctx.lookup_lt {ctx : Ctx} {index : Nat} {ty : Expr} (h : ctx.lookup index = .ok ty) :
    index < ctx.locals.length := by
  simp only [Ctx.lookup, Result.okOr_eq_ok] at h
  split at h
  next inside => exact inside
  next => cases h

@[simp] theorem Ctx.length_pushAssumption (ctx : Ctx) (ty : Expr) :
    (ctx.pushAssumption ty).locals.length = ctx.locals.length + 1 := by simp [Ctx.pushAssumption]

/-- Every variable is looked up, whatever the session answers to the questions in between. -/
theorem inferTerm_closed (layout : Layout) (policy : FuelPolicy) (ctx : Ctx) (term : Expr) :
    Run.Ensures (fun _ => True) (inferTerm env layout policy universeContext ctx term)
      fun _ _ => term.ClosedAt ctx.locals.length := by
  induction term generalizing ctx with
  | sort _ => exact fun _ _ _ _ _ => trivial
  | const _ _ => exact fun _ _ _ _ _ => trivial
  | bvar index =>
    refine Run.ensures_lift fun _ ty _ found => ?_
    simp only [Ctx.lookupType, Result.bind_eq_ok] at found
    obtain ⟨declared, found, _⟩ := found
    exact Ctx.lookup_lt found
  | pi _ ty body ihTy ihBody =>
    have inner := ihBody (ctx.pushAssumption ty)
    rw [Ctx.length_pushAssumption] at inner
    refine Run.ensures_both (Run.ensures_first (ihTy ctx)) fun _ => ?_
    exact Run.ensures_first (Run.ensures_first inner)
  | lam _ ty body ihTy ihBody =>
    have inner := ihBody (ctx.pushAssumption ty)
    rw [Ctx.length_pushAssumption] at inner
    refine Run.ensures_both (Run.ensures_first (ihTy ctx)) fun _ => ?_
    exact Run.ensures_first inner
  | app fn arg ihFn ihArg =>
    refine Run.ensures_both (ihFn ctx) fun fnTy => ?_
    refine Run.ensures_bind (R := fun _ _ => True) (fun _ _ _ _ _ => trivial) fun actual => ?_
    cases actual with
    | pi _ ty body => exact Run.ensures_first (Run.ensures_first (ihArg ctx))
    | sort _ | bvar _ | const _ _ | app _ _ | lam _ _ _ => exact Run.ensures_fail

variable {alloc : Allocator} {term : Expr}

theorem closed_of_ensures {α : Type} {run : Op α} {depth : Nat} {session : Session} {a : α}
    (h : Run.Ensures (fun _ => True) run fun _ _ => term.ClosedAt depth)
    (returned : (run session).1 = .ok a) : term.ClosedAt depth :=
  h session a (run session).2 trivial (Prod.ext returned rfl)

theorem closed_of_expectSort {level : Level}
    (h : env.expectSortInUniverseContext alloc .new universeContext term = .ok level) :
    term.ClosedAt 0 :=
  closed_of_ensures (Run.ensures_first (inferTerm_closed _ .perQuestion .new term)) h

theorem closed_of_check {expected : Expr}
    (h : env.checkInUniverseContext alloc .new universeContext term expected = .ok ()) :
    term.ClosedAt 0 :=
  closed_of_ensures (Run.ensures_first (inferTerm_closed _ .perQuestion .new term)) h

end Infer

/-! ### Admission -/

def EntriesClosed (entries : List (String × Decl)) : Prop :=
  ∀ entry ∈ entries, ∀ term ∈ entry.2.terms, term.ClosedAt 0

/-- The terms of a family are closed. -/
structure FamilyClosed (data : InductiveDecl) : Prop where
  family : (inductiveType data).ClosedAt 0
  constructors : ∀ constructor ∈ data.constructors, constructor.ty.ClosedAt 0
  recursor : ∀ recursor ∈ data.recursor, recursor.ty.ClosedAt 0

section Families

variable {env next : Env} {alloc : Allocator} {data : InductiveDecl}

theorem FamilyClosed.inductiveEntry (h : FamilyClosed data) :
    EntriesClosed [inductiveEntry data] := by
  intro entry mem term hterm
  cases List.mem_singleton.mp mem
  rcases List.mem_cons.mp hterm with rfl | hterm
  · exact h.family
  · obtain ⟨constructor, hconstructor, rfl⟩ := List.mem_map.mp hterm
    exact h.constructors constructor hconstructor

theorem FamilyClosed.constructorEntries (h : FamilyClosed data) :
    EntriesClosed (constructorEntries data) := by
  intro entry mem term hterm
  obtain ⟨constructor, hconstructor, rfl⟩ := List.mem_map.mp mem
  cases List.mem_singleton.mp hterm
  exact h.constructors constructor hconstructor

theorem FamilyClosed.recursorEntries (h : FamilyClosed data) (generated : RecursorRules) :
    EntriesClosed (recursorEntries generated data) := by
  intro entry mem term hterm
  obtain ⟨recursor, hrecursor, rfl⟩ := List.mem_map.mp mem
  cases List.mem_singleton.mp hterm
  exact h.recursor recursor (Option.mem_toList.mp hrecursor)

theorem EntriesClosed.append {xs ys : List (String × Decl)} (first : EntriesClosed xs)
    (second : EntriesClosed ys) : EntriesClosed (xs ++ ys) := by
  intro entry mem
  rcases List.mem_append.mp mem with mem | mem
  · exact first entry mem
  · exact second entry mem

theorem checkConstructorWith_closed {positive : Nat → Expr → Result Unit}
    {constructor : ConstructorDecl} {universeContext : UniverseContext}
    (h : checkConstructorWith env alloc positive data constructor universeContext = .ok ()) :
    constructor.ty.ClosedAt 0 := by
  simp only [checkConstructorWith, Result.bind_eq_ok] at h
  obtain ⟨_, sorted, _⟩ := h
  exact closed_of_expectSort sorted

theorem addRecursor_closed {universeConstraints : List UniverseConstraint}
    {check : Env → RecursorDecl → RecursorRules → UniverseContext → Result Unit}
    {generated : RecursorRules}
    (h : env.addRecursor alloc universeConstraints check generated data = .ok next) :
    ∀ recursor ∈ data.recursor, recursor.ty.ClosedAt 0 := by
  intro recursor hrecursor
  rw [Env.addRecursor, hrecursor] at h
  simp only [Result.bind_eq_ok] at h
  obtain ⟨_, _, _, sorted, _⟩ := h
  exact closed_of_expectSort sorted

/-- In a loop that succeeds every turn succeeds. -/
theorem foldEach_turn {σ α : Type} {step : σ → α → Result σ} {items : List α} {s t : σ}
    (h : Result.foldEach items s step = .ok t) {item : α} (mem : item ∈ items) :
    ∃ before after, step before item = .ok after := by
  obtain ⟨before, after, _, turn⟩ := Result.foldEach_step (P := fun _ => True) items
    (fun _ _ _ _ _ _ => trivial) h trivial mem
  exact ⟨before, after, turn⟩

theorem addInductive_closed (h : env.addInductive alloc data = .ok next) :
    EntriesClosed (inductiveEntries data) := by
  simp only [Env.addInductive, Result.bind_eq_ok] at h
  obtain ⟨_, _, _, _, _, _, _, sorted, _, hconstructors, hrecursor⟩ := h
  have family : FamilyClosed data := by
    refine ⟨closed_of_expectSort sorted, ?_, addRecursor_closed hrecursor⟩
    intro constructor hconstructor
    obtain ⟨_, _, turn⟩ := foldEach_turn hconstructors hconstructor
    simp only [Result.bind_eq_ok] at turn
    obtain ⟨_, checked, _⟩ := turn
    exact checkConstructorWith_closed checked
  exact (family.inductiveEntry.append family.constructorEntries).append (family.recursorEntries _)

theorem addMutualInductive_closed {block : MutualInductiveBlock}
    (h : env.addMutualInductive alloc block = .ok next) : EntriesClosed (mutualEntries block) := by
  simp only [Env.addMutualInductive, Result.bind_eq_ok] at h
  obtain ⟨_, _, _, _, _, _, _, _, _, hfamilies, _, hconstructors, _, hrecursors, _⟩ := h
  have closed : ∀ data ∈ block.inductives, FamilyClosed data := by
    intro data hdata
    constructor
    · obtain ⟨_, _, turn⟩ := foldEach_turn hfamilies hdata
      simp only [Env.addFamily, Result.bind_eq_ok] at turn
      obtain ⟨_, sorted, _⟩ := turn
      exact closed_of_expectSort sorted
    · intro constructor hconstructor
      obtain ⟨_, _, turns⟩ := foldEach_turn hconstructors hdata
      obtain ⟨_, _, turn⟩ := foldEach_turn turns hconstructor
      simp only [Env.addMutualConstructor, Result.bind_eq_ok] at turn
      obtain ⟨_, checked, _⟩ := turn
      exact checkConstructorWith_closed checked
    · obtain ⟨_, _, turn⟩ := foldEach_turn hrecursors hdata
      exact addRecursor_closed turn
  refine EntriesClosed.append (EntriesClosed.append ?_ ?_) ?_
  · intro entry mem
    obtain ⟨data, hdata, rfl⟩ := List.mem_map.mp mem
    exact (closed data hdata).inductiveEntry _ (List.mem_singleton_self _)
  · intro entry mem
    obtain ⟨data, hdata, mem⟩ := List.mem_flatMap.mp mem
    exact (closed data hdata).constructorEntries entry mem
  · intro entry mem
    obtain ⟨data, hdata, mem⟩ := List.mem_flatMap.mp mem
    exact (closed data hdata).recursorEntries _ entry mem

theorem addDecl_closed {declaration : Declaration} (h : env.addDecl alloc declaration = .ok next) :
    EntriesClosed declaration.entries := by
  cases declaration with
  | axiomDecl name universeParams universeConstraints ty =>
    simp only [Env.addDecl, Env.addAxiomWithUniverseConstraints, Result.bind_eq_ok] at h
    obtain ⟨_, _, _, _, _, sorted, _⟩ := h
    intro entry mem term hterm
    cases List.mem_singleton.mp mem
    cases List.mem_singleton.mp hterm
    exact closed_of_expectSort sorted
  | defDecl name universeParams universeConstraints ty value reducibility =>
    simp only [Env.addDecl, Env.addDefWithUniverseConstraints, Result.bind_eq_ok] at h
    obtain ⟨_, _, _, _, _, sorted, _, typed, _⟩ := h
    intro entry mem term hterm
    cases List.mem_singleton.mp mem
    rcases List.mem_pair.mp hterm with rfl | rfl
    · exact closed_of_expectSort sorted
    · exact closed_of_check typed
  | theoremDecl name universeParams universeConstraints ty proof =>
    simp only [Env.addDecl, Env.addTheoremWithUniverseConstraints, Result.bind_eq_ok] at h
    obtain ⟨_, _, _, _, _, sorted, _, typed, _⟩ := h
    intro entry mem term hterm
    cases List.mem_singleton.mp mem
    rcases List.mem_pair.mp hterm with rfl | rfl
    · exact closed_of_expectSort sorted
    · exact closed_of_check typed
  | inductiveDecl data => exact addInductive_closed h
  | mutualInductiveBlock block => exact addMutualInductive_closed h

end Families

/-! ### Environments -/

/-- Every stored term is closed. -/
def Env.Closed (env : Env) : Prop :=
  ∀ name decl, env.decl name = some decl → ∀ term ∈ decl.terms, term.ClosedAt 0

theorem BuiltFrom.closed {P : Declaration → Prop} {env : Env} (built : BuiltFrom P env) :
    env.Closed := by
  refine built.induct ?_ ?_
  · intro options name decl hdecl
    cases hdecl
  · intro env next alloc declaration _ _ h admitted before name decl hdecl term hterm
    rcases admitted.decl_cases hdecl with new | old
    · exact addDecl_closed h (name, decl) new term hterm
    · exact before name decl old term hterm

namespace Env.Closed

variable {env : Env}

theorem type (closed : env.Closed) {name : String} {decl : Decl}
    (declared : env.decl name = some decl) : decl.ty.ClosedAt 0 := by
  have terms := closed name decl declared
  cases decl with
  | axiomDecl | constructorDecl | recursorDecl => exact terms _ (List.mem_singleton_self _)
  | defDecl | theoremDecl | inductiveDecl => exact terms _ List.mem_cons_self

theorem value (closed : env.Closed) {name declName : String} {universeParams : List String}
    {constraints : List UniverseConstraint} {ty value : Expr} {reducibility : Reducibility}
    (declared : env.decl name =
      some (.defDecl declName universeParams constraints ty value reducibility)) :
    value.ClosedAt 0 := closed name _ declared value (by simp [Decl.terms])

theorem constructor (closed : env.Closed) {name : String} {data : InductiveDecl}
    (found : env.inductiveData name = .ok data) {constructor : ConstructorDecl}
    (mem : constructor ∈ data.constructors) : constructor.ty.ClosedAt 0 := by
  obtain ⟨declName, params, ty, declared⟩ := inductiveData_eq_ok.mp found
  apply closed name _ declared
  exact List.mem_cons_of_mem _ (List.mem_map_of_mem mem)

end Env.Closed

end NpaCore.Kernel
