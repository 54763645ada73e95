import Mathlib.Data.List.Basic
import Mathlib.Data.List.Forall2
import Mathlib.Tactic.Common

/-!
# Results of fallible code

Inversion rules for computations in `Except ε`: what must have succeeded when a
sequence, a guarded step or a traversal succeeded; and rules for two computations
that go side by side.
-/

namespace NpaCore.Result

variable {ε α β : Type} {x : Except ε α} {a : α}

/-- A success that can be seen by evaluation. -/
theorem ok_of_toOption (h : x.toOption = some a) : x = .ok a := by
  cases x with
  | error e => cases h
  | ok b => exact congrArg Except.ok (Option.some.inj h)

variable {f : α → Except ε β}

theorem bind_eq_ok {b : β} :
    (x >>= f) = .ok b ↔ ∃ a, x = .ok a ∧ f a = .ok b := by
  cases x with
  | error e => simp [bind, Except.bind]
  | ok a => simp [bind, Except.bind]

theorem ok_bind : ((.ok a : Except ε α) >>= f) = f a := rfl

theorem error_bind {e : ε} : ((.error e : Except ε α) >>= f) = .error e := rfl

theorem map_eq_ok {f : α → β} {b : β} :
    (f <$> x) = .ok b ↔ ∃ a, x = .ok a ∧ f a = b := by
  cases x with
  | error e => simp [Functor.map, Except.map]
  | ok a => simp [Functor.map, Except.map]

theorem mapError_eq_ok {δ : Type} {f : ε → δ} :
    x.mapError f = .ok a ↔ x = .ok a := by
  cases x with
  | error e => simp [Except.mapError]
  | ok b => simp [Except.mapError]

@[simp] theorem pure_eq_ok {a b : α} : (pure a : Except ε α) = .ok b ↔ a = b := by
  simp [pure, Except.pure]

theorem bind_eq_error {e : ε} :
    (x >>= f) = .error e ↔ x = .error e ∨ ∃ a, x = .ok a ∧ f a = .error e := by
  cases x with
  | error e' => simp [bind, Except.bind]
  | ok a => simp [bind, Except.bind]

theorem mapError_eq_error {δ : Type} {f : ε → δ} {d : δ} :
    x.mapError f = .error d ↔ ∃ e, x = .error e ∧ f e = d := by
  cases x with
  | error e => simp [Except.mapError]
  | ok b => simp [Except.mapError]

/-- A check: `Ok(())` when the condition holds and the error otherwise. -/
def ensure (condition : Bool) (error : ε) : Except ε Unit :=
  if condition then .ok () else .error error

@[simp] theorem ensure_eq_ok {condition : Bool} {error : ε} {u : Unit} :
    ensure condition error = .ok u ↔ condition = true := by
  cases condition <;> simp [ensure]

theorem ensure_eq_error {condition : Bool} {error e : ε} :
    ensure condition error = .error e ↔ condition = false ∧ error = e := by
  cases condition <;> simp [ensure]

theorem isOk_iff : x.isOk = true ↔ ∃ a, x = .ok a := by
  cases x <;> simp [Except.isOk, Except.toBool]

/-- The value of an option, or an error when it is absent. -/
def okOr (x : Option α) (error : ε) : Except ε α :=
  match x with
  | some a => .ok a
  | none => .error error

@[simp] theorem okOr_eq_ok {x : Option α} {error : ε} :
    okOr x error = .ok a ↔ x = some a := by
  cases x <;> simp [okOr]

/-- `for item in items { step(item)? }`. -/
def forEach (items : List α) (step : α → Except ε Unit) : Except ε Unit :=
  match items with
  | [] => .ok ()
  | item :: rest => step item >>= fun _ => forEach rest step

theorem forEach_nil (step : α → Except ε Unit) : forEach [] step = .ok () := rfl

theorem forEach_cons (item : α) (rest : List α) (step : α → Except ε Unit) :
    forEach (item :: rest) step = step item >>= fun _ => forEach rest step := rfl

variable {items : List α}

theorem forEach_eq_ok {step : α → Except ε Unit} {u : Unit} :
    forEach items step = .ok u ↔ ∀ item ∈ items, step item = .ok () := by
  induction items with
  | nil => simp [forEach_nil]
  | cons item rest ih =>
    simp only [forEach_cons, bind_eq_ok, ih, List.mem_cons, forall_eq_or_imp]
    constructor
    · rintro ⟨⟨⟩, first, others⟩
      exact ⟨first, others⟩
    · rintro ⟨first, others⟩
      exact ⟨(), first, others⟩

/-- Run a fallible step over the items, threading a state. -/
def foldEach {σ : Type} (items : List α) (state : σ) (step : σ → α → Except ε σ) : Except ε σ :=
  match items with
  | [] => .ok state
  | item :: rest => step state item >>= fun next => foldEach rest next step

variable {σ : Type}

theorem foldEach_nil (state : σ) (step : σ → α → Except ε σ) :
    foldEach [] state step = .ok state := rfl

theorem foldEach_cons (item : α) (rest : List α) (state : σ) (step : σ → α → Except ε σ) :
    foldEach (item :: rest) state step = step state item >>= fun next => foldEach rest next step :=
  rfl

/-- A property of the state that every successful step keeps holds at the end. -/
theorem foldEach_preserves {step : σ → α → Except ε σ} {P : σ → Prop} (items : List α)
    (keeps : ∀ item ∈ items, ∀ s t, step s item = .ok t → P s → P t) {s t : σ}
    (h : foldEach items s step = .ok t) (start : P s) : P t := by
  induction items generalizing s with
  | nil =>
    simp only [foldEach_nil, Except.ok.injEq] at h
    exact h ▸ start
  | cons item rest ih =>
    simp only [foldEach_cons, bind_eq_ok] at h
    obtain ⟨next, hstep, hrest⟩ := h
    exact ih (fun i hi => keeps i (List.mem_cons_of_mem _ hi)) hrest
      (keeps item (by simp) s next hstep start)

/-- The items before another one were processed first, and the others after it. -/
theorem foldEach_append {step : σ → α → Except ε σ} {earlier later : List α} {item : α}
    {s t : σ} (h : foldEach (earlier ++ item :: later) s step = .ok t) :
    ∃ before after, foldEach earlier s step = .ok before ∧ step before item = .ok after := by
  induction earlier generalizing s with
  | nil =>
    simp only [List.nil_append, foldEach_cons, bind_eq_ok] at h
    obtain ⟨after, hstep, _⟩ := h
    exact ⟨s, after, rfl, hstep⟩
  | cons first earlier ih =>
    simp only [List.cons_append, foldEach_cons, bind_eq_ok] at h
    obtain ⟨next, hstep, hrest⟩ := h
    obtain ⟨before, after, hbefore, hitem⟩ := ih hrest
    refine ⟨before, after, ?_, hitem⟩
    simp only [foldEach_cons, bind_eq_ok]
    exact ⟨next, hstep, hbefore⟩

/-- Each item was processed, in some state that has the property. -/
theorem foldEach_step {step : σ → α → Except ε σ} {P : σ → Prop} (items : List α)
    (keeps : ∀ item ∈ items, ∀ s t, step s item = .ok t → P s → P t) {s t : σ}
    (h : foldEach items s step = .ok t) (start : P s) {item : α} (mem : item ∈ items) :
    ∃ before after, P before ∧ step before item = .ok after := by
  induction items generalizing s with
  | nil => cases mem
  | cons first rest ih =>
    simp only [foldEach_cons, bind_eq_ok] at h
    obtain ⟨next, hstep, hrest⟩ := h
    rcases List.mem_cons.mp mem with rfl | mem
    · exact ⟨s, next, start, hstep⟩
    · exact ih (fun i hi => keeps i (List.mem_cons_of_mem _ hi)) hrest
        (keeps first (by simp) s next hstep start) mem

/-- A loop whose successful steps follow a pure function computes its fold. -/
theorem foldEach_eq_foldl {step : σ → α → Except ε σ} {f : σ → α → σ}
    (pureStep : ∀ s a t, step s a = .ok t → t = f s a) (items : List α) {s t : σ}
    (h : foldEach items s step = .ok t) : t = items.foldl f s := by
  induction items generalizing s with
  | nil =>
    cases h
    rfl
  | cons item rest ih =>
    simp only [foldEach_cons, bind_eq_ok] at h
    obtain ⟨next, hstep, hrest⟩ := h
    rw [List.foldl_cons, ← pureStep s item next hstep]
    exact ih hrest

/-- Collect the results of a fallible step, stopping at the first error. -/
def collect (items : List α) (step : α → Except ε β) : Except ε (List β) :=
  match items with
  | [] => .ok []
  | item :: rest => step item >>= fun b => collect rest step >>= fun bs => .ok (b :: bs)

theorem collect_nil (step : α → Except ε β) : collect [] step = .ok [] := rfl

theorem collect_cons (item : α) (rest : List α) (step : α → Except ε β) :
    collect (item :: rest) step =
      step item >>= fun b => collect rest step >>= fun bs => .ok (b :: bs) := rfl

variable {step : α → Except ε β} {results : List β}

theorem collect_eq_ok :
    collect items step = .ok results ↔
      List.Forall₂ (fun a b => step a = .ok b) items results := by
  induction items generalizing results with
  | nil => cases results <;> simp [collect_nil, List.forall₂_nil_left_iff]
  | cons item rest ih =>
    cases results with
    | nil => simp [collect_cons, bind_eq_ok, List.forall₂_nil_right_iff]
    | cons r rs =>
      simp only [collect_cons, bind_eq_ok, Except.ok.injEq, List.cons.injEq, List.forall₂_cons]
      constructor
      · rintro ⟨b, hb, bs, hbs, rfl, rfl⟩
        exact ⟨hb, ih.mp hbs⟩
      · rintro ⟨hb, hbs⟩
        exact ⟨r, hb, rs, ih.mpr hbs, rfl, rfl⟩

/-- A step that computes `f` where `P` holds, and fails elsewhere. -/
theorem collect_eq_ok_map {P : α → Prop} {f : α → β}
    (steps : ∀ a ∈ items, ∀ b, step a = .ok b ↔ P a ∧ b = f a) :
    collect items step = .ok results ↔ (∀ a ∈ items, P a) ∧ results = items.map f := by
  induction items generalizing results with
  | nil => simp [collect_nil, eq_comm]
  | cons item rest ih =>
    obtain ⟨first, others⟩ := List.forall_mem_cons.mp steps
    simp only [collect_cons, bind_eq_ok, first, ih others, Except.ok.injEq, List.forall_mem_cons,
      List.map_cons]
    constructor
    · rintro ⟨_, ⟨here, rfl⟩, _, ⟨there, rfl⟩, rfl⟩
      exact ⟨⟨here, there⟩, rfl⟩
    · rintro ⟨⟨here, there⟩, rfl⟩
      exact ⟨_, ⟨here, rfl⟩, _, ⟨there, rfl⟩, rfl⟩

/-- Every collected result is the result of some item. -/
theorem collect_mem_right (h : collect items step = .ok results) {b : β} (mem : b ∈ results) :
    ∃ a ∈ items, step a = .ok b := by
  have pairs := collect_eq_ok.mp h
  clear h
  induction pairs with
  | nil => cases mem
  | cons first rest ih =>
    rcases List.mem_cons.mp mem with rfl | mem
    · exact ⟨_, by simp, first⟩
    · obtain ⟨a, ha, hstep⟩ := ih mem
      exact ⟨a, List.mem_cons_of_mem _ ha, hstep⟩

/-- Every item has its result among the collected ones. -/
theorem collect_mem_left (h : collect items step = .ok results) (mem : a ∈ items) :
    ∃ b ∈ results, step a = .ok b := by
  have pairs := collect_eq_ok.mp h
  clear h
  induction pairs with
  | nil => cases mem
  | cons first rest ih =>
    rcases List.mem_cons.mp mem with rfl | mem
    · exact ⟨_, by simp, first⟩
    · obtain ⟨b, hb, hstep⟩ := ih mem
      exact ⟨b, List.mem_cons_of_mem _ hb, hstep⟩

/-- The result of an item is found at its place. -/
theorem collect_getElem?
    (h : collect items step = .ok results) {i : Nat} {b : β} (item : items[i]? = some a)
    (result : results[i]? = some b) : step a = .ok b := by
  have pairs := collect_eq_ok.mp h
  clear h
  induction pairs generalizing i with
  | nil => cases item
  | cons first rest ih =>
    cases i with
    | zero =>
      cases item
      cases result
      exact first
    | succ i => exact ih item result

theorem collect_exists (each : ∀ a ∈ items, ∃ result, step a = .ok result) :
    ∃ results, collect items step = .ok results := by
  induction items with
  | nil => exact ⟨[], rfl⟩
  | cons item items ih =>
    obtain ⟨result, result_ok⟩ := each item List.mem_cons_self
    obtain ⟨results, results_ok⟩ := ih fun a mem => each a (List.mem_cons_of_mem _ mem)
    exact ⟨result :: results, by rw [collect_cons, result_ok, ok_bind, results_ok, ok_bind]⟩

/-- What the results have in common with their items. -/
theorem map_of_collect {γ : Type} {f : α → γ} {g : β → γ} (each : ∀ a b, step a = .ok b → g b = f a)
    (h : collect items step = .ok results) : results.map g = items.map f := by
  have pairs := collect_eq_ok.mp h
  clear h
  induction pairs with
  | nil => rfl
  | cons first rest ih => rw [List.map_cons, List.map_cons, each _ _ first, ih]

/-! ### Errors that do not occur -/

/-- The computation does not fail with the error. -/
def Avoids (e : ε) (x : Except ε α) : Prop := x ≠ .error e

section Avoids

variable {e : ε}

theorem avoids_ok : Avoids e (.ok a) := nofun

theorem avoids_error {e' : ε} (differ : e' ≠ e) : Avoids e (.error e' : Except ε α) :=
  fun same => differ (Except.error.inj same)

theorem avoids_ensure {condition : Bool} {e' : ε} (differ : e' ≠ e) :
    Avoids e (ensure condition e') := by
  cases condition with
  | true => exact avoids_ok
  | false => exact avoids_error differ

theorem avoids_okOr {x : Option α} {e' : ε} (differ : e' ≠ e) : Avoids e (okOr x e') := by
  cases x with
  | some a => exact avoids_ok
  | none => exact avoids_error differ

theorem avoids_bind (first : Avoids e x)
    (rest : ∀ a, x = .ok a → Avoids e (f a)) : Avoids e (x >>= f) := by
  cases x with
  | error e' => exact avoids_error fun same => first (same ▸ rfl)
  | ok a => exact rest a rfl

theorem avoids_forEach {step : α → Except ε Unit}
    (each : ∀ item ∈ items, Avoids e (step item)) : Avoids e (forEach items step) := by
  induction items with
  | nil => exact avoids_ok
  | cons item rest ih =>
    obtain ⟨first, others⟩ := List.forall_mem_cons.mp each
    exact avoids_bind first fun _ _ => ih others

theorem avoids_foldEach {step : σ → α → Except ε σ}
    (each : ∀ s, ∀ item ∈ items, Avoids e (step s item)) (s : σ) :
    Avoids e (foldEach items s step) := by
  induction items generalizing s with
  | nil => exact avoids_ok
  | cons item rest ih =>
    exact avoids_bind (each s item List.mem_cons_self) fun next _ =>
      ih (fun s i hi => each s i (List.mem_cons_of_mem item hi)) next

end Avoids

/-! ### Two computations side by side -/

/-- When the first computation succeeds, so does the second, with a related value. -/
def Simulates {γ : Type} (R : α → γ → Prop) (x : Except ε α) (y : Except ε γ) : Prop :=
  ∀ a, x = .ok a → ∃ c, y = .ok c ∧ R a c

section Simulates

variable {γ δ : Type} {R : α → γ → Prop}

theorem simulates_ok {c : γ} (h : R a c) :
    Simulates R (.ok a : Except ε α) (.ok c : Except ε γ) := by
  rintro _ ⟨⟩
  exact ⟨c, rfl, h⟩

theorem simulates_error {e : ε} {y : Except ε γ} : Simulates R (.error e : Except ε α) y := by
  rintro _ ⟨⟩

/-- The same computation on both sides, when its value is related to itself. -/
theorem simulates_self {R : α → α → Prop} (h : ∀ a, x = .ok a → R a a) :
    Simulates R x x :=
  fun a ha => ⟨a, ha, h a ha⟩

theorem simulates_okOr {x : Option α} {y : Option γ} {e e' : ε} (h : Option.Rel R x y) :
    Simulates R (okOr x e) (okOr y e') := by
  cases h with
  | some related => exact simulates_ok related
  | none => exact simulates_error

theorem simulates_bind {S : β → δ → Prop} {y : Except ε γ}
    {g : γ → Except ε δ} (first : Simulates R x y)
    (rest : ∀ a c, R a c → Simulates S (f a) (g c)) : Simulates S (x >>= f) (y >>= g) := by
  intro b hb
  obtain ⟨a, ha, hb⟩ := bind_eq_ok.mp hb
  obtain ⟨c, hc, related⟩ := first a ha
  obtain ⟨d, hd, last⟩ := rest a c related b hb
  exact ⟨d, bind_eq_ok.mpr ⟨c, hc, hd⟩, last⟩

theorem simulates_collect {S : β → δ → Prop} {g : γ → Except ε δ}
    {items' : List γ} (related : List.Forall₂ R items items')
    (step : ∀ a c, R a c → Simulates S (f a) (g c)) :
    Simulates (List.Forall₂ S) (collect items f) (collect items' g) := by
  induction related with
  | nil => exact simulates_ok .nil
  | cons head _ ih =>
    refine simulates_bind (step _ _ head) fun b d hbd => ?_
    exact simulates_bind ih fun _ _ rest => simulates_ok (.cons hbd rest)

end Simulates

/-- Both computations succeed with related values, or both fail, whatever the errors. -/
def Matches {ε' γ : Type} (R : α → γ → Prop) : Except ε α → Except ε' γ → Prop
  | .ok a, .ok c => R a c
  | .error _, .error _ => True
  | .ok _, .error _ | .error _, .ok _ => False

section Matches

variable {ε' γ δ : Type} {R : α → γ → Prop} {y : Except ε' γ}

theorem matches_bind {S : β → δ → Prop} {g : γ → Except ε' δ} (first : Matches R x y)
    (rest : ∀ a c, x = .ok a → y = .ok c → R a c → Matches S (f a) (g c)) :
    Matches S (x >>= f) (y >>= g) := by
  cases x with
  | error e =>
    cases y with
    | error e' => trivial
    | ok c => exact first.elim
  | ok a =>
    cases y with
    | error e' => exact first.elim
    | ok c => exact rest a c rfl rfl first

/-- A step that only the first computation has. -/
theorem matches_bind_left {S : β → γ → Prop} (first : Matches R x y)
    (rest : ∀ a c, R a c → Matches S (f a) (.ok c : Except ε' γ)) : Matches S (x >>= f) y := by
  cases x with
  | error e =>
    cases y with
    | error e' => trivial
    | ok c => exact first.elim
  | ok a =>
    cases y with
    | error e' => exact first.elim
    | ok c => exact rest a c first

/-- A step that only the second computation has. -/
theorem matches_bind_right {S : α → δ → Prop} {g : γ → Except ε' δ} (first : Matches R x y)
    (rest : ∀ a c, R a c → Matches S (.ok a : Except ε α) (g c)) : Matches S x (y >>= g) := by
  cases x with
  | error e =>
    cases y with
    | error e' => trivial
    | ok c => exact first.elim
  | ok a =>
    cases y with
    | error e' => exact first.elim
    | ok c => exact rest a c first

theorem matches_ensure {condition condition' : Bool} {e : ε} {e' : ε'} (same : condition = condition') :
    Matches (fun _ _ => True) (ensure condition e) (ensure condition' e') := by
  subst same
  cases condition <;> trivial

theorem matches_okOr {x : Option α} {y : Option γ} {e : ε} {e' : ε'} (h : Option.Rel R x y) :
    Matches R (okOr x e) (okOr y e') := by
  cases h with
  | some related => exact related
  | none => trivial

/-- Checks match when they accept the same. -/
theorem matches_unit {x : Except ε Unit} {y : Except ε' Unit} (same : x = .ok () ↔ y = .ok ()) :
    Matches (fun _ _ => True) x y := by
  cases x with
  | error e =>
    cases y with
    | error e' => trivial
    | ok => exact nomatch same.mpr rfl
  | ok =>
    cases y with
    | error e' => exact nomatch same.mp rfl
    | ok => trivial

theorem matches_forEach {translate : α → γ} {f : α → Except ε Unit} {g : γ → Except ε' Unit}
    (each : ∀ item ∈ items, Matches (fun _ _ => True) (f item) (g (translate item))) :
    Matches (fun _ _ => True) (forEach items f) (forEach (items.map translate) g) := by
  induction items with
  | nil => trivial
  | cons item rest ih =>
    obtain ⟨first, others⟩ := List.forall_mem_cons.mp each
    exact matches_bind first fun _ _ _ _ _ => ih others

theorem matches_foldEach {σ τ : Type} {S : σ → τ → Prop} {translate : α → γ}
    {f : σ → α → Except ε σ} {g : τ → γ → Except ε' τ}
    (each : ∀ item ∈ items, ∀ s t, S s t → Matches S (f s item) (g t (translate item)))
    {s : σ} {t : τ} (start : S s t) :
    Matches S (foldEach items s f) (foldEach (items.map translate) t g) := by
  induction items generalizing s t with
  | nil => exact start
  | cons item rest ih =>
    obtain ⟨first, others⟩ := List.forall_mem_cons.mp each
    exact matches_bind (first s t start) fun _ _ _ _ next => ih others next

theorem matches_collect {S : β → δ → Prop}
    {g : α → Except ε' δ} (each : ∀ item ∈ items, Matches S (f item) (g item)) :
    Matches (List.Forall₂ S) (collect items f) (collect items g) := by
  induction items with
  | nil => exact List.Forall₂.nil
  | cons item rest ih =>
    obtain ⟨first, others⟩ := List.forall_mem_cons.mp each
    refine matches_bind first fun value value' _ _ head => ?_
    exact matches_bind (ih others) fun values values' _ _ tail => List.Forall₂.cons head tail

theorem Matches.of_left (h : Matches R x y) (left : x = .ok a) : ∃ c, y = .ok c ∧ R a c := by
  subst left
  cases y with
  | error e => exact h.elim
  | ok c => exact ⟨c, rfl, h⟩

theorem Matches.of_right {c : γ} (h : Matches R x y)
    (right : y = .ok c) : ∃ a, x = .ok a ∧ R a c := by
  subst right
  cases x with
  | error e => exact h.elim
  | ok a => exact ⟨a, rfl, h⟩

theorem Matches.isOk_iff (h : Matches R x y) :
    (∃ a, x = .ok a) ↔ ∃ c, y = .ok c := by
  cases x with
  | error e =>
    cases y with
    | error e' => simp
    | ok c => exact h.elim
  | ok a =>
    cases y with
    | error e' => exact h.elim
    | ok c => simp

theorem Matches.eq_ok_iff {y : Except ε' α} (h : Matches Eq x y) :
    x = .ok a ↔ y = .ok a := by
  cases x with
  | error e =>
    cases y with
    | error e' => simp
    | ok c => exact h.elim
  | ok b =>
    cases y with
    | error e' => exact h.elim
    | ok c => rw [show b = c from h, Except.ok.injEq, Except.ok.injEq]

theorem Matches.toOption_eq {y : Except ε' α} (h : Matches Eq x y) :
    x.toOption = y.toOption := by
  cases x with
  | error e =>
    cases y with
    | error e' => rfl
    | ok c => exact h.elim
  | ok a =>
    cases y with
    | error e' => exact h.elim
    | ok c => exact congrArg some h

end Matches

/-! ### Computations seen through translations -/

section Translations

variable {γ δ σ τ : Type}

/-- A sequence whose rest commutes with translations of what is handed on and of the outcome. -/
theorem bind_translate {g : α → γ} {h : β → δ} {k : α → Except ε β}
    {k' : γ → Except ε δ} (rest : ∀ a, k' (g a) = (k a).map h) :
    (x.map g >>= k') = (x >>= k).map h := by
  cases x with
  | error e => rfl
  | ok a => exact rest a

theorem okOr_translate (g : α → γ) (x : Option α) (error : ε) :
    okOr (x.map g) error = (okOr x error).map g := by
  cases x <;> rfl

theorem collect_translate {g : α → γ} {h : β → δ}
    {step' : γ → Except ε δ} (each : ∀ a, step' (g a) = (step a).map h) (items : List α) :
    collect (items.map g) step' = (collect items step).map (List.map h) := by
  induction items with
  | nil => rfl
  | cons item rest ih =>
    rw [List.map_cons, collect_cons, collect_cons, each, ih]
    refine bind_translate fun head => ?_
    exact bind_translate fun tail => rfl

theorem foldEach_translate {g : α → γ} {h : σ → τ} {step : σ → α → Except ε σ}
    {step' : τ → γ → Except ε τ} (each : ∀ s a, step' (h s) (g a) = (step s a).map h)
    (items : List α) (state : σ) :
    foldEach (items.map g) (h state) step' = (foldEach items state step).map h := by
  induction items generalizing state with
  | nil => rfl
  | cons item rest ih =>
    rw [List.map_cons, foldEach_cons, foldEach_cons, each]
    exact bind_translate ih

theorem forEach_translate {g : α → γ} {step : α → Except ε Unit} {step' : γ → Except ε Unit}
    (each : ∀ a, step' (g a) = step a) (items : List α) :
    forEach (items.map g) step' = forEach items step := by
  induction items with
  | nil => rfl
  | cons item rest ih => rw [List.map_cons, forEach_cons, forEach_cons, each, ih]

end Translations

end NpaCore.Result
