import NpaCore.Syntax.Expr

/-!
# Strict positivity of a field

The walk that `env.rs` and the reference checker both make over the domain of a
constructor field, over arbitrary constants. `PositivityRules` says which terms
are direct occurrences of a family of the block, which constants the block
declares and which constants are approved functors.

## Main results

`strictlyPositive_iff`: a field that the walk accepts has only strictly positive
occurrences exactly when no application of a member that the walk stops at, or
passes through as a functor, mentions a member in its arguments.
-/

namespace NpaCore.Expr

variable {κ ν β : Type}

/-! ### Induction over application spines -/

def size : Expr κ ν β → Nat
  | sort _ => 1
  | bvar _ => 1
  | const _ _ => 1
  | app fn arg => fn.size + arg.size + 1
  | lam _ ty body => ty.size + body.size + 1
  | pi _ ty body => ty.size + body.size + 1

theorem size_lt_of_mem_collectApps {e arg : Expr κ ν β} (h : arg ∈ e.collectApps.2) :
    arg.size < e.size := by
  induction e with
  | app fn last ihFn _ =>
    simp only [collectApps, List.mem_append, List.mem_singleton] at h
    simp only [size]
    rcases h with h | rfl
    · have smaller := ihFn h
      omega
    · omega
  | sort _ | bvar _ | const _ _ | lam _ _ _ _ _ | pi _ _ _ _ _ => simp [collectApps] at h

/-- Induction in which an application has the hypothesis for all arguments of its spine. -/
theorem spineInduction {P : Expr κ ν β → Prop} (sort : ∀ level, P (sort level))
    (bvar : ∀ index, P (bvar index)) (const : ∀ name levels, P (const name levels))
    (app : ∀ fn arg, (∀ a ∈ (app fn arg).collectApps.2, P a) → P (app fn arg))
    (lam : ∀ binder ty body, P (lam binder ty body))
    (pi : ∀ binder ty body, P body → P (pi binder ty body)) (e : Expr κ ν β) : P e := by
  induction hn : e.size using Nat.strongRecOn generalizing e with
  | ind n ih =>
    subst hn
    cases e with
    | sort level => exact sort level
    | bvar index => exact bvar index
    | const name levels => exact const name levels
    | app fn arg => exact app fn arg fun a ha => ih a.size (size_lt_of_mem_collectApps ha) a rfl
    | lam binder ty body => exact lam binder ty body
    | pi binder ty body => exact pi binder ty body (ih body.size (by simp only [size]; omega) body rfl)

end NpaCore.Expr

namespace NpaCore

open NpaCore.Expr

variable {κ ν β : Type}

/-- What the walk asks of the block and of the environment. -/
structure PositivityRules (κ ν β : Type) where
  /-- The term is a direct occurrence of a family, in a context of that length. -/
  direct : Expr κ ν β → Nat → Bool
  /-- The families of the block. -/
  members : List κ
  /-- The positive argument positions of a constant that is approved at that arity. -/
  functor : κ → Nat → Option (List Nat)

namespace PositivityRules

variable [DecidableEq κ] (rules : PositivityRules κ ν β)

def mentions (e : Expr κ ν β) : Bool := e.containsAnyConst rules.members

/-! ### The walk -/

/-- The answer at an application that is not a direct occurrence, from the answers at the
    arguments of its spine. -/
def spinePositive (e : Expr κ ν β) (answers : List Bool) : Bool :=
  match e.collectApps with
  | (.const name _, args) =>
    match rules.functor name args.length with
    | none => !rules.mentions e
    | some positions =>
      (args.zip answers).zipIdx.all fun ((arg, answer), index) =>
        if positions.contains index then answer else !rules.mentions arg
  | _ => !rules.mentions e

/-- The answer of the walk, with the answers at the arguments of the application spine. -/
def walk : Expr κ ν β → Nat → Bool × List Bool
  | .sort level, ctxLen => (rules.direct (.sort level) ctxLen || true, [])
  | .bvar index, ctxLen => (rules.direct (.bvar index) ctxLen || true, [])
  | .const name levels, ctxLen =>
    (rules.direct (.const name levels) ctxLen || !rules.members.contains name, [])
  | .app fn arg, ctxLen =>
    let answers := (walk fn ctxLen).2 ++ [(walk arg ctxLen).1]
    (rules.direct (.app fn arg) ctxLen || rules.spinePositive (.app fn arg) answers, answers)
  | .pi binder ty body, ctxLen =>
    (rules.direct (.pi binder ty body) ctxLen ||
      (!rules.mentions ty && (walk body (ctxLen + 1)).1), [])
  | .lam binder ty body, ctxLen =>
    (rules.direct (.lam binder ty body) ctxLen || !rules.mentions (.lam binder ty body), [])

/-- `recursive_occurrences_strictly_positive`. -/
def occurrencesStrictlyPositive (e : Expr κ ν β) (ctxLen : Nat) : Bool := (rules.walk e ctxLen).1

theorem walk_answers (e : Expr κ ν β) (ctxLen : Nat) :
    (rules.walk e ctxLen).2 =
      e.collectApps.2.map fun arg => rules.occurrencesStrictlyPositive arg ctxLen := by
  induction e with
  | app fn arg ihFn _ => simp [walk, collectApps, ihFn, occurrencesStrictlyPositive]
  | sort _ | bvar _ | const _ _ | lam _ _ _ _ _ | pi _ _ _ _ _ => rfl

omit [DecidableEq κ] in
theorem all_zip_map {args : List (Expr κ ν β)} (f : Expr κ ν β → Bool)
    (test : Expr κ ν β → Bool → Nat → Bool) (start : Nat) :
    ((args.zip (args.map f)).zipIdx start).all (fun ((arg, answer), index) => test arg answer index) =
      (args.zipIdx start).all fun (arg, index) => test arg (f arg) index := by
  induction args generalizing start with
  | nil => rfl
  | cons first rest ih => simp only [List.map_cons, List.zip_cons_cons, List.zipIdx_cons,
      List.all_cons, ih]

/-- The walk at an application, as the source writes it: through the arguments of the
    spine with the walk itself. -/
theorem occurrencesStrictlyPositive_app (fn arg : Expr κ ν β) (ctxLen : Nat) :
    rules.occurrencesStrictlyPositive (.app fn arg) ctxLen =
      (rules.direct (.app fn arg) ctxLen ||
        match (Expr.app fn arg).collectApps with
        | (.const name _, args) =>
          match rules.functor name args.length with
          | none => !rules.mentions (.app fn arg)
          | some positions => args.zipIdx.all fun (arg, index) =>
            if positions.contains index then rules.occurrencesStrictlyPositive arg ctxLen
            else !rules.mentions arg
        | _ => !rules.mentions (.app fn arg)) := by
  have answers := rules.walk_answers (.app fn arg) ctxLen
  simp only [walk] at answers
  simp only [occurrencesStrictlyPositive, walk, answers, spinePositive]
  congr 1
  split
  next name levels args heq =>
    have hargs : (Expr.app fn arg).collectApps.2 = args := by rw [heq]
    rw [hargs]
    split
    next => rfl
    next positions _ =>
      exact all_zip_map _
        (fun arg answer index => if positions.contains index then answer else !rules.mentions arg) 0
  next => rfl

/-! ### What the walk is for -/

/-- Every member of the block occurs strictly positively: as the head of an application
    to `arity` arguments that mention no member, under `Pi` domains that mention none
    and inside positive arguments of approved functors that the block does not declare. -/
inductive StrictlyPositive (arity : κ → Option Nat) : Expr κ ν β → Prop
  | absent {e} (h : rules.mentions e = false) : StrictlyPositive arity e
  | occurrence {name levels args} (saturated : arity name = some args.length)
      (free : ∀ arg ∈ args, rules.mentions arg = false) :
      StrictlyPositive arity (apps (.const name levels) args)
  | pi {binder ty body} (domain : rules.mentions ty = false)
      (codomain : StrictlyPositive arity body) : StrictlyPositive arity (.pi binder ty body)
  | nested {name levels args positions} (foreign : name ∉ rules.members)
      (approved : rules.functor name args.length = some positions)
      (positive : ∀ arg index, (arg, index) ∈ args.zipIdx → index ∈ positions →
        StrictlyPositive arity arg)
      (others : ∀ arg index, (arg, index) ∈ args.zipIdx → index ∉ positions →
        rules.mentions arg = false) :
      StrictlyPositive arity (apps (.const name levels) args)

/-- The terms the walk looks at, with the lengths of their contexts. A direct occurrence
    ends the walk. -/
inductive Visits : Expr κ ν β → Nat → Expr κ ν β → Nat → Prop
  | here (e ctxLen) : Visits e ctxLen e ctxLen
  | codomain {binder ty body ctxLen target targetLen}
      (h : rules.direct (.pi binder ty body) ctxLen = false)
      (rest : Visits body (ctxLen + 1) target targetLen) :
      Visits (.pi binder ty body) ctxLen target targetLen
  | argument {fn arg ctxLen name levels args positions inner index target targetLen}
      (h : rules.direct (.app fn arg) ctxLen = false)
      (spine : (Expr.app fn arg).collectApps = (.const name levels, args))
      (approved : rules.functor name args.length = some positions)
      (mem : (inner, index) ∈ args.zipIdx) (positive : index ∈ positions)
      (rest : Visits inner ctxLen target targetLen) :
      Visits (.app fn arg) ctxLen target targetLen

/-- The arguments of the application spine mention no member. -/
def ArgumentsFree (e : Expr κ ν β) : Prop := ∀ arg ∈ e.collectApps.2, rules.mentions arg = false

/-- A member of the block at the head of the spine passes for an approved functor. -/
def MemberFunctor (e : Expr κ ν β) : Prop :=
  ∃ name levels args, e.collectApps = (.const name levels, args) ∧ name ∈ rules.members ∧
    (rules.functor name args.length).isSome

/-- The walk only accepts member applications whose arguments are free of members. -/
def Separated (e : Expr κ ν β) (ctxLen : Nat) : Prop :=
  ∀ visited visitedLen, rules.Visits e ctxLen visited visitedLen →
    rules.direct visited visitedLen = true ∨ rules.MemberFunctor visited →
    rules.ArgumentsFree visited

/-- How the rules fit a block whose members take `arity` arguments. -/
structure Fits (arity : κ → Option Nat) : Prop where
  members : ∀ name n, arity name = some n → name ∈ rules.members
  direct : ∀ e ctxLen, rules.direct e ctxLen = true → ∃ name levels args,
    e.collectApps = (.const name levels, args) ∧ arity name = some args.length
  functor : ∀ name n, name ∈ rules.members → (rules.functor name n).isSome → arity name = some n

/-! ### Occurrences of members -/

theorem mentions_app (fn arg : Expr κ ν β) :
    rules.mentions (.app fn arg) = (rules.mentions fn || rules.mentions arg) := by
  rw [Bool.eq_iff_iff]
  simp only [mentions, containsAnyConst, containsConst, List.any_eq_true, Bool.or_eq_true]
  constructor
  · rintro ⟨name, hname, h | h⟩
    · exact .inl ⟨name, hname, h⟩
    · exact .inr ⟨name, hname, h⟩
  · rintro (⟨name, hname, h⟩ | ⟨name, hname, h⟩)
    · exact ⟨name, hname, .inl h⟩
    · exact ⟨name, hname, .inr h⟩

theorem mentions_pi_false {binder : β} {ty body : Expr κ ν β} :
    rules.mentions (.pi binder ty body) = false ↔
      rules.mentions ty = false ∧ rules.mentions body = false := by
  simp only [mentions, containsAnyConst, containsConst, List.any_eq_false, Bool.or_eq_true,
    not_or, forall_and]

theorem mentions_const (name : κ) (levels : List (Level ν)) :
    rules.mentions (.const name levels) = rules.members.contains name := by
  rw [Bool.eq_iff_iff]
  simp [mentions, containsAnyConst, containsConst]

theorem mentions_spine_false (e : Expr κ ν β) :
    rules.mentions e = false ↔
      rules.mentions e.collectApps.1 = false ∧ rules.ArgumentsFree e := by
  induction e with
  | app fn arg ihFn _ =>
    simp only [mentions_app, Bool.or_eq_false_iff, ihFn, ArgumentsFree, collectApps,
      List.mem_append, List.mem_singleton, or_imp, forall_and, forall_eq, and_assoc]
  | sort _ | bvar _ | const _ _ | lam _ _ _ _ _ | pi _ _ _ _ _ =>
    simp [ArgumentsFree, collectApps]

theorem Visits.mentions_false {e visited : Expr κ ν β} {ctxLen visitedLen : Nat}
    (h : rules.Visits e ctxLen visited visitedLen) (free : rules.mentions e = false) :
    rules.mentions visited = false := by
  induction h with
  | here => exact free
  | codomain _ _ ih => exact ih (rules.mentions_pi_false.mp free).2
  | @argument fn arg _ _ _ args _ inner _ _ _ _ spine _ mem _ _ ih =>
    apply ih
    have args_free := ((rules.mentions_spine_false _).mp free).2
    apply args_free
    rw [spine]
    exact List.fst_mem_of_mem_zipIdx mem

variable {ctxLen : Nat} {e : Expr κ ν β}

theorem separated_of_free (free : rules.mentions e = false) :
    rules.Separated e ctxLen := by
  intro visited visitedLen h _
  exact ((rules.mentions_spine_false visited).mp (h.mentions_false rules free)).2

/-! ### The two readings of the walk agree on separated fields -/

variable {levels : List (Level ν)}

theorem StrictlyPositive.spine_cases {arity : κ → Option Nat} {name : κ}
    {args : List (Expr κ ν β)} (h : rules.StrictlyPositive arity e)
    (spine : e.collectApps = (.const name levels, args)) :
    rules.mentions e = false ∨
      (arity name = some args.length ∧ ∀ arg ∈ args, rules.mentions arg = false) ∨
      (name ∉ rules.members ∧ ∃ positions, rules.functor name args.length = some positions ∧
        (∀ arg index, (arg, index) ∈ args.zipIdx → index ∈ positions →
          rules.StrictlyPositive arity arg) ∧
        ∀ arg index, (arg, index) ∈ args.zipIdx → index ∉ positions →
          rules.mentions arg = false) := by
  cases h with
  | absent free => exact .inl free
  | occurrence saturated free =>
    rw [collectApps_apps_const] at spine
    cases spine
    exact .inr (.inl ⟨saturated, free⟩)
  | pi _ _ => cases spine
  | nested foreign approved positive others =>
    rw [collectApps_apps_const] at spine
    cases spine
    exact .inr (.inr ⟨foreign, _, approved, positive, others⟩)

omit [DecidableEq κ] in
theorem eq_apps_of_spine {name : κ}
    {args : List (Expr κ ν β)} (spine : e.collectApps = (.const name levels, args)) :
    e = apps (.const name levels) args := by
  have whole := apps_collectApps e
  rw [spine] at whole
  exact whole.symm

theorem mentions_of_member {name : κ}
    {args : List (Expr κ ν β)} (spine : e.collectApps = (.const name levels, args))
    (member : name ∈ rules.members) : rules.mentions e ≠ false := by
  intro free
  have head := ((rules.mentions_spine_false e).mp free).1
  rw [spine, mentions_const] at head
  simp [member] at head

section Agreement

variable {arity : κ → Option Nat} (fits : rules.Fits arity)

include fits in
/-- At an application of a member, positive occurrences and free arguments are the same. -/
theorem strictlyPositive_member_iff {name : κ}
    {args : List (Expr κ ν β)} (spine : e.collectApps = (.const name levels, args))
    (saturated : arity name = some args.length) :
    rules.StrictlyPositive arity e ↔ rules.ArgumentsFree e := by
  have member := fits.members name _ saturated
  rw [ArgumentsFree, spine]
  constructor
  · intro positive
    rcases positive.spine_cases rules spine with free | ⟨_, free⟩ | ⟨foreign, _⟩
    · exact absurd free (rules.mentions_of_member spine member)
    · exact free
    · exact absurd member foreign
  · intro free
    rw [eq_apps_of_spine spine]
    exact .occurrence saturated free

/-- What `Separated` says at a term that the walk does not stop at: nothing of the term
    itself unless it is a member in the place of a functor, and the same of its parts. -/
theorem separated_here (h : rules.Separated e ctxLen)
    (stop : rules.direct e ctxLen = true ∨ rules.MemberFunctor e) : rules.ArgumentsFree e :=
  h e ctxLen (.here e ctxLen) stop

theorem separated_pi {binder : β} {ty body : Expr κ ν β}
    (direct : rules.direct (.pi binder ty body) ctxLen = false) :
    rules.Separated (.pi binder ty body) ctxLen ↔ rules.Separated body (ctxLen + 1) := by
  constructor
  · intro h visited visitedLen hvisit
    exact h visited visitedLen (.codomain direct hvisit)
  · intro h visited visitedLen hvisit stop
    cases hvisit with
    | here => simp [ArgumentsFree, collectApps]
    | codomain _ rest => exact h visited visitedLen rest stop

theorem strictlyPositive_pi_iff {binder : β} {ty body : Expr κ ν β}
    (domain : rules.mentions ty = false) :
    rules.StrictlyPositive arity (.pi binder ty body) ↔ rules.StrictlyPositive arity body := by
  refine ⟨fun positive => ?_, .pi domain⟩
  generalize whole : Expr.pi binder ty body = e at positive
  have head : e.collectApps.1 = .pi binder ty body := by rw [← whole]; rfl
  cases positive with
  | absent free =>
    rw [← whole] at free
    exact .absent (rules.mentions_pi_false.mp free).2
  | pi _ codomain =>
    cases whole
    exact codomain
  | occurrence _ _ | nested _ _ _ _ =>
    rw [collectApps_apps_const] at head
    cases head

variable {fn arg : Expr κ ν β}

theorem separated_of_argumentsFree
    (free : rules.ArgumentsFree (.app fn arg)) : rules.Separated (.app fn arg) ctxLen := by
  intro visited visitedLen hvisit stop
  cases hvisit with
  | here => exact free
  | argument _ spine _ mem _ rest =>
    refine rules.separated_of_free (free _ ?_) visited visitedLen rest stop
    rw [spine]
    exact List.fst_mem_of_mem_zipIdx mem

theorem separated_functor {name : κ} {args : List (Expr κ ν β)} {positions : List Nat}
    (direct : rules.direct (.app fn arg) ctxLen = false)
    (spine : (Expr.app fn arg).collectApps = (.const name levels, args))
    (foreign : name ∉ rules.members) (approved : rules.functor name args.length = some positions) :
    rules.Separated (.app fn arg) ctxLen ↔
      ∀ inner index, (inner, index) ∈ args.zipIdx → index ∈ positions →
        rules.Separated inner ctxLen := by
  constructor
  · intro separated inner index mem positive visited visitedLen hvisit
    exact separated visited visitedLen (.argument direct spine approved mem positive hvisit)
  · intro inside visited visitedLen hvisit stop
    cases hvisit with
    | here =>
      rcases stop with stop | ⟨_, _, _, spine', member, _⟩
      · rw [direct] at stop
        cases stop
      · cases spine.symm.trans spine'
        exact absurd member foreign
    | argument _ spine' approved' mem positive rest =>
      cases spine.symm.trans spine'
      cases approved.symm.trans approved'
      exact inside _ _ mem positive visited visitedLen rest stop

/-- Through a functor that the block does not declare, both readings go to the positive
    arguments. -/
theorem strictlyPositive_functor_iff {name : κ} {args : List (Expr κ ν β)} {positions : List Nat}
    (members : ∀ name n, arity name = some n → name ∈ rules.members)
    (direct : rules.direct (.app fn arg) ctxLen = false)
    (spine : (Expr.app fn arg).collectApps = (.const name levels, args))
    (foreign : name ∉ rules.members) (approved : rules.functor name args.length = some positions)
    (others : ∀ inner index, (inner, index) ∈ args.zipIdx → index ∉ positions →
      rules.mentions inner = false)
    (inside : ∀ inner index, (inner, index) ∈ args.zipIdx → index ∈ positions →
      (rules.StrictlyPositive arity inner ↔ rules.Separated inner ctxLen)) :
    rules.StrictlyPositive arity (.app fn arg) ↔ rules.Separated (.app fn arg) ctxLen := by
  constructor
  · intro positive
    rcases positive.spine_cases rules spine with free | ⟨saturated, _⟩ | ⟨_, found⟩
    · exact rules.separated_of_free free
    · exact absurd (members name _ saturated) foreign
    · obtain ⟨positions', approved', positiveArgs, _⟩ := found
      cases approved.symm.trans approved'
      rw [rules.separated_functor direct spine foreign approved]
      intro inner index mem hpositive
      exact (inside inner index mem hpositive).mp (positiveArgs inner index mem hpositive)
  · intro separated
    rw [rules.separated_functor direct spine foreign approved] at separated
    rw [eq_apps_of_spine spine]
    refine .nested foreign approved ?_ others
    intro inner index mem hpositive
    exact (inside inner index mem hpositive).mpr (separated inner index mem hpositive)

include fits in
theorem strictlyPositive_app_iff
    (ih : ∀ a ∈ (Expr.app fn arg).collectApps.2, ∀ n, rules.occurrencesStrictlyPositive a n = true →
        (rules.StrictlyPositive arity a ↔ rules.Separated a n))
    (direct : rules.direct (.app fn arg) ctxLen = false)
    (accepted : rules.occurrencesStrictlyPositive (.app fn arg) ctxLen = true) :
    rules.StrictlyPositive arity (.app fn arg) ↔ rules.Separated (.app fn arg) ctxLen := by
  have free_case : rules.mentions (.app fn arg) = false →
      (rules.StrictlyPositive arity (.app fn arg) ↔ rules.Separated (.app fn arg) ctxLen) :=
    fun free => ⟨fun _ => rules.separated_of_free free, fun _ => .absent free⟩
  rw [occurrencesStrictlyPositive_app, direct, Bool.false_or] at accepted
  split at accepted
  next name levels args spine =>
    rw [spine] at ih
    split at accepted
    next unapproved => exact free_case (by simpa using accepted)
    next positions approved =>
      have answers : ∀ inner index, (inner, index) ∈ args.zipIdx →
          (if positions.contains index then rules.occurrencesStrictlyPositive inner ctxLen
            else !rules.mentions inner) = true :=
        fun inner index mem => List.all_eq_true.mp accepted (inner, index) mem
      by_cases member : name ∈ rules.members
      · -- a family of the block in the place of a functor
        have isFunctor : (rules.functor name args.length).isSome = true := by rw [approved]; rfl
        have saturated := fits.functor name _ member isFunctor
        rw [rules.strictlyPositive_member_iff fits spine saturated]
        constructor
        · exact rules.separated_of_argumentsFree
        · intro separated
          exact rules.separated_here separated (.inr ⟨name, levels, args, spine, member, isFunctor⟩)
      · refine rules.strictlyPositive_functor_iff fits.members direct spine member approved ?_ ?_
        · intro inner index mem other
          have answer := answers inner index mem
          rw [if_neg (by simpa using other)] at answer
          simpa using answer
        · intro inner index mem positive
          have answer := answers inner index mem
          rw [if_pos (by simpa using positive)] at answer
          exact ih inner (List.fst_mem_of_mem_zipIdx mem) ctxLen answer
  next => exact free_case (by simpa using accepted)

include fits in
theorem strictlyPositive_iff (e : Expr κ ν β)
    (accepted : rules.occurrencesStrictlyPositive e ctxLen = true) :
    rules.StrictlyPositive arity e ↔ rules.Separated e ctxLen := by
  have free_case : ∀ e n, rules.mentions e = false →
      (rules.StrictlyPositive arity e ↔ rules.Separated e n) :=
    fun e n free => ⟨fun _ => rules.separated_of_free free, fun _ => .absent free⟩
  have head_const : ∀ e n, rules.direct e n = true → ∃ name levels, e.collectApps.1 =
      .const name levels := by
    intro e n direct
    obtain ⟨name, levels, _, spine, _⟩ := fits.direct e n direct
    exact ⟨name, levels, by rw [spine]⟩
  induction e using Expr.spineInduction generalizing ctxLen with
  | sort level | bvar index =>
    exact free_case _ _ (by simp [mentions, containsAnyConst, containsConst])
  | const name levels =>
    have separated : rules.Separated (.const name levels) ctxLen := by
      intro visited visitedLen hvisit _
      cases hvisit
      simp [ArgumentsFree, collectApps]
    refine ⟨fun _ => separated, fun _ => ?_⟩
    cases direct : rules.direct (.const name levels) ctxLen with
    | true =>
      obtain ⟨_, _, _, spine, saturated⟩ := fits.direct _ _ direct
      rw [rules.strictlyPositive_member_iff fits spine saturated]
      exact rules.separated_here separated (.inl direct)
    | false =>
      refine .absent ?_
      simp only [occurrencesStrictlyPositive, walk, direct, Bool.false_or] at accepted
      rw [mentions_const]
      simpa using accepted
  | app fn arg ih =>
    cases direct : rules.direct (.app fn arg) ctxLen with
    | true =>
      obtain ⟨_, _, _, spine, saturated⟩ := fits.direct _ _ direct
      rw [rules.strictlyPositive_member_iff fits spine saturated]
      constructor
      · exact rules.separated_of_argumentsFree
      · intro separated
        exact rules.separated_here separated (.inl direct)
    | false => exact rules.strictlyPositive_app_iff fits (fun a ha n => ih a ha) direct accepted
  | lam binder ty body =>
    cases direct : rules.direct (.lam binder ty body) ctxLen with
    | true =>
      obtain ⟨_, _, head⟩ := head_const _ _ direct
      cases head
    | false =>
      simp only [occurrencesStrictlyPositive, walk, direct, Bool.false_or] at accepted
      exact free_case _ _ (by simpa using accepted)
  | pi binder ty body ih =>
    cases direct : rules.direct (.pi binder ty body) ctxLen with
    | true =>
      obtain ⟨_, _, head⟩ := head_const _ _ direct
      cases head
    | false =>
      simp only [occurrencesStrictlyPositive, walk, direct, Bool.false_or, Bool.and_eq_true] at accepted
      obtain ⟨domain, codomain⟩ := accepted
      have domain_free : rules.mentions ty = false := by simpa using domain
      have inner : rules.StrictlyPositive arity body ↔ rules.Separated body (ctxLen + 1) :=
        ih codomain
      rw [rules.separated_pi direct, ← inner]
      exact rules.strictlyPositive_pi_iff domain_free

end Agreement

end PositivityRules

end NpaCore
