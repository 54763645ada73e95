import NpaCore.Lib.Result

/-!
# Runs that may fail and keep a state

`Run σ ε α` is a computation that reads and writes a state and returns a result or
an error, with the state it reached in both cases: code that takes `&mut` arguments
and returns a `Result`.

## Main definitions

`Run.Ensures`: a precondition on the state and a postcondition on what a successful
run returns and leaves, with one rule for each way to build a run.

`Run.Commits`: a run that leaves the state of a given function when that succeeds,
and the state it started with when it fails, with the rules for a method that checks
first and writes last, or that works on a clone.
-/

namespace NpaCore

def Run (σ ε α : Type) := σ → Except ε α × σ

namespace Run

variable {σ ε α β : Type}

def bind (x : Run σ ε α) (f : α → Run σ ε β) : Run σ ε β := fun s =>
  match x s with
  | (.ok a, t) => f a t
  | (.error e, t) => (.error e, t)

instance : Monad (Run σ ε) where
  pure a := fun s => (.ok a, s)
  bind := bind

instance : LawfulMonad (Run σ ε) := LawfulMonad.mk' (Run σ ε)
  (by
    intro α x
    funext s
    show bind x _ s = x s
    unfold bind
    rcases x s with ⟨_ | a, t⟩ <;> rfl)
  (fun _ _ => rfl)
  (by
    intro α β γ x f g
    funext s
    show bind (bind x f) g s = bind x (fun a => bind (f a) g) s
    simp only [bind]
    rcases x s with ⟨_ | a, t⟩ <;> rfl)

/-- Fail in the present state. -/
def fail (error : ε) : Run σ ε α := fun s => (.error error, s)

/-- A result that does not depend on the state. -/
def lift (x : Except ε α) : Run σ ε α := fun s => (x, s)

def get : Run σ ε σ := fun s => (.ok s, s)

def modify (f : σ → σ) : Run σ ε Unit := fun s => (.ok (), f s)

/-! ### What a successful run did -/

variable {f : α → Run σ ε β}

theorem bind_eq_ok {x : Run σ ε α} {s t : σ} {b : β} :
    (x >>= f) s = (.ok b, t) ↔ ∃ a m, x s = (.ok a, m) ∧ f a m = (.ok b, t) := by
  change bind x f s = _ ↔ _
  unfold bind
  rcases h : x s with ⟨_ | a, m⟩
  · simp
  · simp

@[simp] theorem pure_apply (a : α) (s : σ) : (pure a : Run σ ε α) s = (.ok a, s) := rfl

theorem lift_eq_ok {x : Except ε α} {s t : σ} {a : α} :
    (lift x : Run σ ε α) s = (.ok a, t) ↔ x = .ok a ∧ s = t := by
  simp [lift]

theorem fail_eq_ok {error : ε} {s t : σ} {a : α} :
    (fail error : Run σ ε α) s = (.ok a, t) ↔ False := by
  simp [fail]

theorem pure_eq_ok {s t : σ} {a b : α} :
    (pure a : Run σ ε α) s = (.ok b, t) ↔ a = b ∧ s = t := by
  simp

/-! ### Preconditions and postconditions -/

/-- From a state with `P`, a successful run returns and leaves what `Q` describes. -/
def Ensures (P : σ → Prop) (x : Run σ ε α) (Q : α → σ → Prop) : Prop :=
  ∀ s a t, P s → x s = (.ok a, t) → Q a t

variable {P : σ → Prop}

theorem ensures_pure {Q : α → σ → Prop} {a : α} (h : ∀ s, P s → Q a s) :
    Ensures P (pure a : Run σ ε α) Q := by
  intro s b t hs hrun
  cases hrun
  exact h s hs

theorem ensures_bind {R : α → σ → Prop} {Q : β → σ → Prop} {x : Run σ ε α}
    (hx : Ensures P x R) (hf : ∀ a, Ensures (R a) (f a) Q) :
    Ensures P (x >>= f) Q := by
  intro s b t hs hrun
  obtain ⟨a, m, hfirst, hrest⟩ := bind_eq_ok.mp hrun
  exact hf a m b t (hx s a m hs hfirst) hrest

theorem ensures_fail {Q : α → σ → Prop} {error : ε} :
    Ensures P (fail error : Run σ ε α) Q := by
  intro s a t _ hrun
  cases hrun

theorem ensures_lift {Q : α → σ → Prop} {x : Except ε α}
    (h : ∀ s a, P s → x = .ok a → Q a s) : Ensures P (lift x) Q := by
  intro s a t hs hrun
  cases hrun
  exact h s a hs rfl

theorem ensures_modify {Q : Unit → σ → Prop} {f : σ → σ}
    (h : ∀ s, P s → Q () (f s)) : Ensures P (modify f : Run σ ε Unit) Q := by
  intro s a t hs hrun
  cases hrun
  exact h s hs

/-- A fact that the first part has established stays established. -/
theorem ensures_first {Q : Prop} {x : Run σ ε α}
    (hx : Ensures P x fun _ _ => Q) : Ensures P (x >>= f) fun _ _ => Q :=
  ensures_bind hx fun _ _ _ _ h _ => h

/-- Both parts establish their facts. -/
theorem ensures_both {Q Q' : Prop} {x : Run σ ε α} (hx : Ensures (fun _ => True) x fun _ _ => Q)
    (hf : ∀ a, Ensures (fun _ => True) (f a) fun _ _ => Q') :
    Ensures (fun _ => True) (x >>= f) fun _ _ => Q ∧ Q' :=
  ensures_bind hx fun a s b t h hrun => ⟨h, hf a s b t trivial hrun⟩

/-! ### Runs that carry over to a larger state -/

/-- Where the first run succeeds, the second one does from the grown state, with the same result,
    and leaves the grown state. -/
def Carries (grow : σ → σ) (x y : Run σ ε α) : Prop :=
  ∀ s a t, x s = (.ok a, t) → y (grow s) = (.ok a, grow t)

variable {grow : σ → σ}

theorem carries_pure (a : α) : Carries grow (pure a : Run σ ε α) (pure a) := by
  intro s b t h
  cases h
  rfl

theorem carries_lift {x y : Except ε α} (h : ∀ a, x = .ok a → y = .ok a) :
    Carries grow (lift x) (lift y) := by
  intro s a t run
  obtain ⟨rfl, rfl⟩ := lift_eq_ok.mp run
  exact lift_eq_ok.mpr ⟨h a rfl, rfl⟩

theorem carries_fail {error : ε} {y : Run σ ε α} :
    Carries grow (fail error : Run σ ε α) y := by
  intro s a t run
  cases run

theorem carries_bind {x y : Run σ ε α} {f g : α → Run σ ε β}
    (first : Carries grow x y) (rest : ∀ a, Carries grow (f a) (g a)) :
    Carries grow (x >>= f) (y >>= g) := by
  intro s b t run
  obtain ⟨a, m, hx, hf⟩ := bind_eq_ok.mp run
  exact bind_eq_ok.mpr ⟨a, grow m, first s a m hx, rest a m b t hf⟩

/-! ### Methods that commit -/

/-- A question to the state, as a method that takes `&self`. -/
def ask (question : σ → Except ε α) : Run σ ε α := fun s => (question s, s)

/-- `let mut candidate = self.clone()`, with the work done on the candidate. -/
def onClone (work : Run σ ε Unit) : Run σ ε σ := fun s =>
  match work s with
  | (.ok _, candidate) => (.ok candidate, s)
  | (.error e, _) => (.error e, s)

/-- `*self = candidate`. -/
def replace (candidate : σ) : Run σ ε Unit := modify fun _ => candidate

/-- `let result = x;`, without the `?` that would return on an error. -/
def attempt (x : Run σ ε α) : Run σ ε (Except ε α) := fun s => (.ok (x s).1, (x s).2)

/-- `for item in items { step(item)? }`. -/
def forEach (items : List α) (step : α → Run σ ε Unit) : Run σ ε Unit :=
  match items with
  | [] => pure ()
  | item :: rest => step item >>= fun _ => forEach rest step

/-- In a loop that succeeds each turn succeeds. -/
theorem forEach_mem {items : List α} {step : α → Run σ ε Unit} {s t : σ} {u : Unit}
    (h : forEach items step s = (.ok u, t)) {item : α} (mem : item ∈ items) :
    ∃ before after, step item before = (.ok (), after) := by
  induction items generalizing s with
  | nil => cases mem
  | cons first rest ih =>
    obtain ⟨_, middle, now, later⟩ := bind_eq_ok.mp h
    rcases List.mem_cons.mp mem with rfl | mem
    · exact ⟨s, middle, now⟩
    · exact ih later mem

theorem carries_forEach {items : List α} {step step' : α → Run σ ε Unit}
    (h : ∀ item ∈ items, Carries grow (step item) (step' item)) :
    Carries grow (forEach items step) (forEach items step') := by
  induction items with
  | nil => exact carries_pure ()
  | cons item rest ih =>
    apply carries_bind (h item List.mem_cons_self)
    intro _
    exact ih fun other mem => h other (List.mem_cons_of_mem _ mem)

/-- The run leaves what `next` returns, and on an error the state it started with. -/
def Commits (x : Run σ ε Unit) (next : σ → Except ε σ) : Prop :=
  ∀ s, x s = match next s with
    | .ok t => (.ok (), t)
    | .error e => (.error e, s)

/-- A successful run leaves what `next` returns; what a failing run leaves does not matter. -/
def Leaves (x : Run σ ε Unit) (next : σ → Except ε σ) : Prop :=
  ∀ s, (x s).1.map (fun _ => (x s).2) = next s

theorem Commits.unique {x y : Run σ ε Unit} {next : σ → Except ε σ} (hx : Commits x next)
    (hy : Commits y next) : x = y := by
  funext s
  rw [hx s, hy s]

theorem commits_modify (f : σ → σ) : Commits (modify f : Run σ ε Unit) fun s => .ok (f s) :=
  fun _ => rfl

variable {next : α → σ → Except ε σ} {f : α → Run σ ε Unit}

theorem commits_lift {x : Except ε α}
    (rest : ∀ a, Commits (f a) (next a)) : Commits (lift x >>= f) fun s => x >>= fun a => next a s := by
  intro s
  cases x with
  | error e => rfl
  | ok a => exact rest a s

/-- The second question may be another way to ask the first. -/
theorem commits_ask {question question' : σ → Except ε α}
    (same : ∀ s, question s = question' s) (rest : ∀ a, Commits (f a) (next a)) :
    Commits (ask question >>= f) fun s => question' s >>= fun a => next a s := by
  intro s
  have asked : (ask question >>= f) s = (lift (question s) >>= f) s := rfl
  rw [asked, same s]
  exact commits_lift rest s

theorem commits_onClone {work : Run σ ε Unit} {next : σ → Except ε σ} (h : Leaves work next) :
    Commits (onClone work >>= replace) next := by
  intro s
  have first : (onClone work >>= replace) s = bind (onClone work) replace s := rfl
  rw [first, bind, onClone, ← h s]
  rcases work s with ⟨_ | _, t⟩
  · rfl
  · rfl

theorem leaves_pure : Leaves (pure () : Run σ ε Unit) fun s => .ok s := fun _ => rfl

theorem leaves_modify (f : σ → σ) : Leaves (modify f : Run σ ε Unit) fun s => .ok (f s) :=
  fun _ => rfl

theorem leaves_modify_bind {f : σ → σ} {x : Unit → Run σ ε Unit} {next : σ → Except ε σ}
    (rest : ∀ u, Leaves (x u) next) : Leaves (modify f >>= x) fun s => next (f s) :=
  fun s => rest () (f s)

theorem leaves_lift {x : Except ε α}
    (rest : ∀ a, Leaves (f a) (next a)) : Leaves (lift x >>= f) fun s => x >>= fun a => next a s := by
  intro s
  cases x with
  | error e => rfl
  | ok a => exact rest a s

theorem leaves_ask {question question' : σ → Except ε α}
    (same : ∀ s, question s = question' s) (rest : ∀ a, Leaves (f a) (next a)) :
    Leaves (ask question >>= f) fun s => question' s >>= fun a => next a s := by
  intro s
  have asked : (ask question >>= f) s = (lift (question s) >>= f) s := rfl
  rw [asked, same s]
  exact leaves_lift rest s

theorem leaves_bind {x : Run σ ε Unit} {f : Unit → Run σ ε Unit} {first second : σ → Except ε σ}
    (hx : Leaves x first) (hf : ∀ u, Leaves (f u) second) :
    Leaves (x >>= f) fun s => first s >>= second := by
  intro s
  have whole : (x >>= f) s = bind x f s := rfl
  simp only [whole, bind, ← hx s]
  rcases x s with ⟨_ | _, t⟩
  · rfl
  · exact hf () t

theorem leaves_forEach {items : List α} {step : α → Run σ ε Unit} {next : σ → α → Except ε σ}
    (h : ∀ item, Leaves (step item) fun s => next s item) :
    Leaves (forEach items step) fun s => Result.foldEach items s next := by
  induction items with
  | nil => exact leaves_pure
  | cons item rest ih => exact leaves_bind (h item) fun _ => ih

end Run

end NpaCore
