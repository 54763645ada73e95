import NpaCore.Lib.Codec

/-!
# Recursive descent

Parsers that look at the tokens ahead, loops that go on while these are of some kind,
and a parser that calls itself on what is inside. Such a parser is given as a body with
the inner parser as a parameter; each unfolding allows one more level of nesting.

## Main results

* `whileAhead_eq`: a loop whose step reads a token is not stopped by the bound on its turns.
* `descend_eq`: a body that reads a token before each inner call does not notice how many
  levels it is allowed, once there are more of them than tokens.
* `Ensures`: what every step ensures holds of the result of the descent.
-/

namespace NpaCore.Parser

variable {τ ε α β : Type}

/-- Succeed without reading when the tokens ahead are of the kind. -/
def ahead (test : List τ → Bool) : Parser τ ε Bool := fun input => .ok (test input, input)

/-- `while test { step }`, on at most as many turns as there are tokens. -/
def whileAheadN (test : List τ → Bool) (step : Parser τ ε α) : Nat → Parser τ ε (List α)
  | 0 => pure []
  | turns + 1 => do
    if ← ahead test then do
      let first ← step
      let others ← whileAheadN test step turns
      pure (first :: others)
    else pure []

def whileAhead (test : List τ → Bool) (step : Parser τ ε α) : Parser τ ε (List α) :=
  fun input => whileAheadN test step input.length input

/-- The body with inner calls nested at most `levels` deep. -/
def descendN (error : ε) (body : Parser τ ε α → Parser τ ε α) : Nat → Parser τ ε α
  | 0 => fail error
  | levels + 1 => body (descendN error body levels)

/-- The body with more levels than there are tokens. -/
def descend (error : ε) (body : Parser τ ε α → Parser τ ε α) : Parser τ ε α :=
  fun input => descendN error body (input.length + 1) input

theorem ahead_eq_ok {test : List τ → Bool} {input rest : List τ} {b : Bool} :
    (ahead test : Parser τ ε Bool) input = .ok (b, rest) ↔ test input = b ∧ input = rest := by
  simp [ahead]

theorem ahead_bind {test : List τ → Bool} {f : Bool → Parser τ ε α} {input : List τ} :
    (ahead test >>= f) input = f (test input) input := rfl

theorem bind_of_ok {p : Parser τ ε α} {f : α → Parser τ ε β} {input middle : List τ} {a : α}
    (h : p input = .ok (a, middle)) : (p >>= f) input = f a middle := by
  change bind p f input = _
  unfold bind
  rw [h]

/-! ### What a parser ensures -/

section Ensures

variable {good : τ → Prop} {p : Parser τ ε α} {f : α → Parser τ ε β} {post : α → Prop}
  {next : β → Prop} {test : List τ → Bool}

/-- On tokens that are all good, the result satisfies `post` and the rest is left as it was. -/
def Ensures (good : τ → Prop) (p : Parser τ ε α) (post : α → Prop) : Prop :=
  ∀ input a rest, (∀ t ∈ input, good t) → p input = .ok (a, rest) → post a ∧ rest <:+ input

theorem Ensures.mono {weaker : α → Prop} (h : Ensures good p post)
    (imp : ∀ a, post a → weaker a) : Ensures good p weaker := by
  intro input a rest tokens ok
  exact ⟨imp a (h input a rest tokens ok).1, (h input a rest tokens ok).2⟩

theorem Ensures.pure {a : α} (h : post a) :
    Ensures good (Pure.pure a : Parser τ ε α) post := by
  intro input b rest _ ok
  obtain ⟨rfl, rfl⟩ := pure_eq_ok.mp ok
  exact ⟨h, List.suffix_refl _⟩

theorem Ensures.fail {error : ε} : Ensures good (fail error : Parser τ ε α) post :=
  fun _ _ _ _ ok => absurd ok fail_ne_ok

theorem Ensures.bind (hp : Ensures good p post) (hf : ∀ a, post a → Ensures good (f a) next) :
    Ensures good (p >>= f) next := by
  intro input b rest tokens ok
  obtain ⟨a, middle, first, second⟩ := bind_eq_ok.mp ok
  obtain ⟨ha, suffix⟩ := hp input a middle tokens first
  obtain ⟨hb, others⟩ := hf a ha middle b rest (fun t mem => tokens t (suffix.subset mem)) second
  exact ⟨hb, others.trans suffix⟩

theorem Ensures.ahead : Ensures good (ahead test : Parser τ ε Bool) fun _ => True := by
  intro input b rest _ ok
  obtain ⟨-, rfl⟩ := ahead_eq_ok.mp ok
  exact ⟨trivial, List.suffix_refl _⟩

theorem Ensures.ensure {condition : Bool} {error : ε} :
    Ensures good (ensure condition error : Parser τ ε Unit) fun _ => condition = true := by
  intro input u rest _ ok
  obtain ⟨holds, rfl⟩ := ensure_eq_ok.mp ok
  exact ⟨holds, List.suffix_refl _⟩

theorem Ensures.ite {condition : Bool} {q : Parser τ ε α}
    (hp : condition = true → Ensures good p post) (hq : condition = false → Ensures good q post) :
    Ensures good (if condition then p else q) post := by
  cases condition with
  | false => exact hq rfl
  | true => exact hp rfl

theorem Ensures.whileAhead (hp : Ensures good p post) :
    Ensures good (whileAhead test p) fun items => ∀ item ∈ items, post item := by
  have turns (count : Nat) :
      Ensures good (whileAheadN test p count) fun items => ∀ item ∈ items, post item := by
    induction count with
    | zero => exact Ensures.pure (by simp)
    | succ count ih =>
      refine Ensures.ahead.bind fun go _ => Ensures.ite (fun _ => ?_) fun _ => Ensures.pure (by simp)
      refine hp.bind fun first hfirst => ih.bind fun others hothers => Ensures.pure ?_
      simpa using ⟨hfirst, hothers⟩
  exact fun input => turns input.length input

/-- What the body ensures of its inner parser, the descent ensures. -/
theorem Ensures.descendN {error : ε} {body : Parser τ ε α → Parser τ ε α}
    (step : ∀ inner, Ensures good inner post → Ensures good (body inner) post) (levels : Nat) :
    Ensures good (descendN error body levels) post := by
  induction levels with
  | zero => exact Ensures.fail
  | succ levels ih => exact step _ ih

theorem Ensures.descend {error : ε} {body : Parser τ ε α → Parser τ ε α}
    (step : ∀ inner, Ensures good inner post → Ensures good (body inner) post) :
    Ensures good (descend error body) post :=
  fun input => Ensures.descendN step (input.length + 1) input

end Ensures

/-! ### Reading on -/

section Progress

variable {p q : Parser τ ε α} {f g : α → Parser τ ε β} {test : List τ → Bool} {size : Nat}

/-- What the parser leaves is the end of what it was given. -/
abbrev Shrinks (p : Parser τ ε α) : Prop := Ensures (fun _ => True) p fun _ => True

/-- The parser reads a token when it succeeds. -/
def Consumes (p : Parser τ ε α) : Prop :=
  ∀ input a rest, p input = .ok (a, rest) → rest <:+ input ∧ rest.length < input.length

theorem Ensures.shrinks {post : α → Prop} (h : Ensures (fun _ => True) p post) : Shrinks p :=
  h.mono fun _ _ => trivial

theorem Consumes.shrinks (h : Consumes p) : Shrinks p :=
  fun input a rest _ ok => ⟨trivial, (h input a rest ok).1⟩

theorem Shrinks.length_le {input rest : List τ} {a : α} (h : Shrinks p)
    (ok : p input = .ok (a, rest)) : rest.length ≤ input.length :=
  (h input a rest (fun _ _ => trivial) ok).2.length_le

theorem Consumes.bind (hp : Consumes p) (hf : ∀ a, Shrinks (f a)) : Consumes (p >>= f) := by
  intro input b rest h
  obtain ⟨a, middle, first, second⟩ := bind_eq_ok.mp h
  obtain ⟨suffix, smaller⟩ := hp input a middle first
  have others := (hf a middle b rest (fun _ _ => trivial) second).2
  exact ⟨others.trans suffix, Nat.lt_of_le_of_lt others.length_le smaller⟩

/-- The parsers do the same on inputs below this size. -/
def AgreeBelow (size : Nat) (p q : Parser τ ε α) : Prop :=
  ∀ input : List τ, input.length < size → p input = q input

theorem AgreeBelow.refl : AgreeBelow size p p := fun _ _ => rfl

theorem AgreeBelow.bind (hp : AgreeBelow size p q) (shrinks : Shrinks q)
    (hf : ∀ a, AgreeBelow size (f a) (g a)) : AgreeBelow size (p >>= f) (q >>= g) := by
  intro input small
  change Parser.bind p f input = Parser.bind q g input
  unfold Parser.bind
  rw [hp input small]
  rcases ok : q input with error | ⟨a, middle⟩
  · rfl
  · exact hf a middle (Nat.lt_of_le_of_lt (shrinks.length_le ok) small)

/-- Once a token is read, the rest is smaller. -/
theorem AgreeBelow.after (consumes : Consumes p) (hf : ∀ a, AgreeBelow size (f a) (g a)) :
    AgreeBelow (size + 1) (p >>= f) (p >>= g) := by
  intro input small
  change Parser.bind p f input = Parser.bind p g input
  unfold Parser.bind
  rcases ok : p input with error | ⟨a, middle⟩
  · rfl
  · have := (consumes input a middle ok).2
    exact hf a middle (by omega)

theorem AgreeBelow.ite {condition : Bool} {p' q' : Parser τ ε α} (hp : AgreeBelow size p q)
    (hq : AgreeBelow size p' q') :
    AgreeBelow size (if condition then p else p') (if condition then q else q') := by
  cases condition with
  | false => exact hq
  | true => exact hp

theorem whileAheadN_shrinks (shrinks : Shrinks p) (turns : Nat) :
    Shrinks (whileAheadN test p turns) := by
  induction turns with
  | zero => exact Ensures.pure trivial
  | succ turns ih =>
    refine Ensures.ahead.bind fun go _ => Ensures.ite (fun _ => ?_) fun _ => Ensures.pure trivial
    exact shrinks.bind fun _ _ => ih.bind fun _ _ => Ensures.pure trivial

theorem AgreeBelow.whileAhead (hp : AgreeBelow size p q) (shrinks : Shrinks q) :
    AgreeBelow size (whileAhead test p) (whileAhead test q) := by
  have turns (count : Nat) :
      AgreeBelow size (whileAheadN test p count) (whileAheadN test q count) := by
    induction count with
    | zero => exact AgreeBelow.refl
    | succ count ih =>
      refine AgreeBelow.refl.bind Ensures.ahead fun go => AgreeBelow.ite ?_ AgreeBelow.refl
      exact hp.bind shrinks fun first =>
        ih.bind (whileAheadN_shrinks shrinks count) fun _ => AgreeBelow.refl
  exact fun input small => turns input.length input small

/-- More turns than tokens change nothing. -/
theorem whileAheadN_agree (consumes : Consumes p) (empty : test [] = false) {turns more : Nat}
    (enough : size ≤ turns) (still : size ≤ more) :
    AgreeBelow (size + 1) (whileAheadN test p turns) (whileAheadN test p more) := by
  induction size generalizing turns more with
  | zero =>
    have stops (turns : Nat) : whileAheadN test p turns [] = .ok ([], []) := by
      cases turns with
      | zero => rfl
      | succ turns =>
        rw [whileAheadN, ahead_bind, empty]
        rfl
    intro input small
    obtain rfl : input = [] := List.length_eq_zero_iff.mp (by omega)
    rw [stops turns, stops more]
  | succ size ih =>
    cases turns with
    | zero => omega
    | succ turns =>
      cases more with
      | zero => omega
      | succ more =>
        have others := ih (Nat.le_of_succ_le_succ enough) (Nat.le_of_succ_le_succ still)
        refine AgreeBelow.refl.bind Ensures.ahead fun go => AgreeBelow.ite ?_ AgreeBelow.refl
        exact AgreeBelow.after consumes fun first =>
          others.bind (whileAheadN_shrinks consumes.shrinks more) fun _ => AgreeBelow.refl

/-- A loop that starts takes at least one turn. -/
theorem whileAhead_ne_nil {input rest : List τ} {items : List α} (nonempty : input ≠ [])
    (first : test input = true) (ok : whileAhead test p input = .ok (items, rest)) :
    items ≠ [] := by
  cases input with
  | nil => exact absurd rfl nonempty
  | cons t others =>
    rw [whileAhead, List.length_cons, whileAheadN, ahead_bind, first] at ok
    obtain ⟨item, _, _, ok⟩ := bind_eq_ok.mp ok
    obtain ⟨others, _, _, ok⟩ := bind_eq_ok.mp ok
    obtain ⟨rfl, -⟩ := pure_eq_ok.mp ok
    exact List.cons_ne_nil item others

/-- A loop that reads on is not stopped by the bound on its turns. -/
theorem whileAhead_eq (consumes : Consumes p) (empty : test [] = false) :
    whileAhead test p = (do
      if ← ahead test then do
        let first ← p
        let others ← whileAhead test p
        pure (first :: others)
      else pure [] : Parser τ ε (List α)) := by
  funext input
  have once : AgreeBelow (input.length + 1) (whileAheadN test p (input.length + 1))
      (whileAheadN test p input.length) :=
    whileAheadN_agree consumes empty (Nat.le_succ _) (Nat.le_refl _)
  have inner : AgreeBelow (input.length + 1) (whileAheadN test p input.length)
      (whileAhead test p) := by
    intro smaller small
    exact whileAheadN_agree consumes empty (Nat.le_of_lt_succ small) (Nat.le_refl _) smaller
      (Nat.lt_succ_self _)
  have shrinks : Shrinks (whileAhead test p) :=
    fun input => whileAheadN_shrinks consumes.shrinks input.length input
  refine (once input (Nat.lt_succ_self _)).symm.trans ?_
  refine AgreeBelow.refl.bind Ensures.ahead (fun go => AgreeBelow.ite ?_ AgreeBelow.refl) input
    (Nat.lt_succ_self _)
  exact AgreeBelow.refl.bind consumes.shrinks fun first => inner.bind shrinks fun _ => AgreeBelow.refl

theorem whileAhead_stop (consumes : Consumes p) (empty : test [] = false) {input : List τ}
    (stop : test input = false) : whileAhead test p input = .ok ([], input) := by
  rw [whileAhead_eq consumes empty, ahead_bind, stop]
  rfl

theorem whileAhead_turn (consumes : Consumes p) (empty : test [] = false)
    {input middle rest : List τ} {a : α} {others : List α} (start : test input = true)
    (first : p input = .ok (a, middle)) (next : whileAhead test p middle = .ok (others, rest)) :
    whileAhead test p input = .ok (a :: others, rest) := by
  rw [whileAhead_eq consumes empty, ahead_bind, start, if_pos rfl, bind_of_ok first,
    bind_of_ok next]
  rfl

end Progress

section Descend

variable {error : ε} {body : Parser τ ε α → Parser τ ε α} {post : α → Prop}

theorem descendN_agree
    (keeps : ∀ inner, Ensures (fun _ => True) inner post → Ensures (fun _ => True) (body inner) post)
    (reads : ∀ size p q, Ensures (fun _ => True) q post → AgreeBelow size p q →
      AgreeBelow (size + 1) (body p) (body q)) {size levels more : Nat}
    (enough : size ≤ levels) (still : size ≤ more) :
    AgreeBelow size (descendN error body levels) (descendN error body more) := by
  induction size generalizing levels more with
  | zero => exact fun _ small => absurd small (Nat.not_lt_zero _)
  | succ size ih =>
    cases levels with
    | zero => omega
    | succ levels =>
      cases more with
      | zero => omega
      | succ more =>
        exact reads size _ _ (Ensures.descendN keeps more)
          (ih (Nat.le_of_succ_le_succ enough) (Nat.le_of_succ_le_succ still))

/-- The descent is a fixed point of its body. -/
theorem descend_eq
    (keeps : ∀ inner, Ensures (fun _ => True) inner post → Ensures (fun _ => True) (body inner) post)
    (reads : ∀ size p q, Ensures (fun _ => True) q post → AgreeBelow size p q →
      AgreeBelow (size + 1) (body p) (body q)) :
    descend error body = body (descend error body) := by
  funext input
  have same : AgreeBelow input.length (descendN error body input.length) (descend error body) :=
    fun smaller small => descendN_agree keeps reads small (Nat.le_refl _) smaller
      (Nat.lt_succ_self _)
  exact reads input.length _ _ (Ensures.descend keeps) same input (Nat.lt_succ_self _)

end Descend

end NpaCore.Parser
