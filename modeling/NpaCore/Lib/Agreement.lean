import NpaCore.Lib.Codec

/-!
# Two parsers of one format

`Agrees`: two parsers, written with their own results and errors, succeed on the same
inputs, with the same result and the same tokens left. The result of the second may hold
more, which `forget` drops, and the second may leave a check for later: the first parser
then reads what the second reads and the check, `accepted`, lets pass.

There is a rule for each way to build a parser. Inputs are bounded, because a parser that
keeps an offset can only compute with the offsets of an input that is there.
-/

namespace NpaCore.Parser

variable {τ ε ε' α β γ δ : Type} {size : Nat}

/-- Steps of a step. -/
theorem bind_bind {p : Parser τ ε α} {f : α → Parser τ ε β} {g : β → Parser τ ε γ} :
    (p >>= f) >>= g = p >>= fun a => f a >>= g := by
  funext input
  change Parser.bind (Parser.bind p f) g input = Parser.bind p (fun a => Parser.bind (f a) g) input
  unfold Parser.bind
  rcases p input with _ | ⟨a, rest⟩
  · rfl
  · rfl

theorem pure_bind_eq {a : α} {f : α → Parser τ ε β} : (Pure.pure a >>= f) = f a := rfl

variable {error : ε}

theorem ensure_true_bind {f : Unit → Parser τ ε β} :
    (ensure true error >>= f) = f () := rfl

theorem ensure_false_bind {f : Unit → Parser τ ε β} :
    (ensure false error >>= f) = fail error := rfl

structure Agrees (size : Nat) (p : Parser τ ε α) (q : Parser τ ε' β) (forget : β → α)
    (accepted : β → Prop) : Prop where
  same : ∀ {input : List τ}, input.length ≤ size → ∀ a rest,
    p input = .ok (a, rest) ↔ ∃ b, q input = .ok (b, rest) ∧ accepted b ∧ forget b = a
  shrinks : ∀ {input rest : List τ} {b}, input.length ≤ size → q input = .ok (b, rest) →
    rest.length ≤ input.length

/-- The parsers read the same values, and nothing is left to check. -/
abbrev Same (size : Nat) (p : Parser τ ε α) (q : Parser τ ε' α) : Prop :=
  Agrees size p q id fun _ => True

/-- Every result satisfies `post`. -/
def Yields (p : Parser τ ε α) (post : α → Prop) : Prop :=
  ∀ input a rest, p input = .ok (a, rest) → post a

theorem Yields.pure {a : α} {post : α → Prop} (h : post a) :
    Yields (Pure.pure a : Parser τ ε α) post := by
  intro input b rest ok
  obtain ⟨rfl, -⟩ := pure_eq_ok.mp ok
  exact h

theorem Yields.bind {p : Parser τ ε α} {f : α → Parser τ ε β} {post : β → Prop}
    (h : ∀ a, Yields (f a) post) : Yields (p >>= f) post := by
  intro input b rest ok
  obtain ⟨a, middle, _, second⟩ := bind_eq_ok.mp ok
  exact h a middle b rest second

namespace Agrees

variable {p : Parser τ ε α} {q : Parser τ ε' β} {forget : β → α} {accepted : β → Prop}
  {f : α → Parser τ ε γ} {g : β → Parser τ ε' δ} {forget' : δ → γ} {accepted' : δ → Prop}

theorem pure {a : α} {b : β} (holds : accepted b) (same : forget b = a) :
    Agrees size (Pure.pure a : Parser τ ε α) (Pure.pure b : Parser τ ε' β) forget accepted where
  same _ a' rest := by
    simp only [pure_eq_ok]
    constructor
    · rintro ⟨rfl, rfl⟩
      exact ⟨b, ⟨rfl, rfl⟩, holds, same⟩
    · rintro ⟨_, ⟨rfl, rfl⟩, _, rfl⟩
      exact ⟨same.symm, rfl⟩
  shrinks _ ok := by
    obtain ⟨-, rfl⟩ := pure_eq_ok.mp ok
    exact Nat.le_refl _

theorem fail {error' : ε'} :
    Agrees size (Parser.fail error : Parser τ ε α) (Parser.fail error' : Parser τ ε' β) forget
      accepted where
  same _ _ _ := by simp
  shrinks _ ok := absurd ok fail_ne_ok

/-- One parser after the other. The later result keeps the earlier one, so that what is left
to check on it says what was left to check on the earlier one. -/
theorem bind_kept (later : δ → Prop) (hp : Agrees size p q forget accepted)
    (hf : ∀ b, Agrees size (f (forget b)) (g b) forget' later)
    (kept : ∀ b, Yields (g b) fun d => accepted' d ↔ accepted b ∧ later d) :
    Agrees size (p >>= f) (q >>= g) forget' accepted' where
  same small c rest := by
    simp only [bind_eq_ok]
    constructor
    · rintro ⟨a, middle, first, second⟩
      obtain ⟨b, read, holds, rfl⟩ := (hp.same small a middle).mp first
      have less := Nat.le_trans (hp.shrinks small read) small
      obtain ⟨d, last, hd, forgets⟩ := ((hf b).same less c rest).mp second
      exact ⟨d, ⟨b, middle, read, last⟩, (kept b middle d rest last).mpr ⟨holds, hd⟩, forgets⟩
    · rintro ⟨d, ⟨b, middle, read, last⟩, hd, forgets⟩
      obtain ⟨holds, hd⟩ := (kept b middle d rest last).mp hd
      have less := Nat.le_trans (hp.shrinks small read) small
      exact ⟨forget b, middle, (hp.same small _ middle).mpr ⟨b, read, holds, rfl⟩,
        ((hf b).same less c rest).mpr ⟨d, last, hd, forgets⟩⟩
  shrinks small ok := by
    obtain ⟨b, middle, read, last⟩ := bind_eq_ok.mp ok
    have less := hp.shrinks small read
    exact Nat.le_trans ((hf b).shrinks (Nat.le_trans less small) last) less

/-- Nothing is left to check on the earlier result. -/
theorem bind (hp : Agrees size p q forget fun _ => True)
    (hf : ∀ b, Agrees size (f (forget b)) (g b) forget' accepted') :
    Agrees size (p >>= f) (q >>= g) forget' accepted' :=
  hp.bind_kept accepted' hf fun _ _ _ _ _ => by simp

/-- Both parsers read the same value first. -/
theorem bind_same {q : Parser τ ε' α} {g : α → Parser τ ε' δ} (hp : Same size p q)
    (hf : ∀ a, Agrees size (f a) (g a) forget' accepted') :
    Agrees size (p >>= f) (q >>= g) forget' accepted' :=
  bind hp hf

/-- The second parser looks at something that the first does not. -/
theorem bind_right {p : Parser τ ε γ} (reads : ∀ input : List τ, ∃ b, q input = .ok (b, input))
    (hg : ∀ b, Agrees size p (g b) forget' accepted') :
    Agrees size p (q >>= g) forget' accepted' where
  same {input} small c rest := by
    obtain ⟨b, read⟩ := reads input
    have first : (q >>= g) input = g b input := by
      change Parser.bind q g input = _
      unfold Parser.bind
      rw [read]
    rw [first]
    exact (hg b).same small c rest
  shrinks {input rest d} small ok := by
    obtain ⟨b, middle, first, last⟩ := bind_eq_ok.mp ok
    obtain ⟨b', read⟩ := reads input
    obtain ⟨rfl, rfl⟩ : b' = b ∧ input = middle := by simpa [read] using first
    exact (hg b').shrinks small last

theorem ensure {condition condition' : Bool} {error' : ε'} (same : condition = condition') :
    Same size (Parser.ensure condition error : Parser τ ε Unit)
      (Parser.ensure condition' error' : Parser τ ε' Unit) := by
  subst same
  cases condition with
  | false => exact fail
  | true => exact pure trivial rfl

theorem token {error' : ε'} :
    Same size (Parser.token error : Parser τ ε τ) (Parser.token error' : Parser τ ε' τ) where
  same _ t rest := by simp [token_eq_ok]
  shrinks _ ok := by
    rw [token_eq_ok.mp ok]
    exact Nat.le_succ _

theorem remaining :
    Same size (Parser.remaining : Parser τ ε (List τ))
      (Parser.remaining : Parser τ ε' (List τ)) where
  same _ t rest := by simp [remaining_eq_ok]
  shrinks _ ok := by
    obtain ⟨-, rfl⟩ := remaining_eq_ok.mp ok
    exact Nat.le_refl _

/-- The first parser makes a check that the second leaves for later. -/
theorem check (h : Agrees size p q forget accepted) (condition : α → Bool) :
    Agrees size (do
      let a ← p
      Parser.ensure (condition a) error
      Pure.pure a) q forget fun b => accepted b ∧ condition (forget b) = true where
  same small a rest := by
    simp only [bind_eq_ok, ensure_eq_ok, pure_eq_ok]
    constructor
    · rintro ⟨_, _, first, _, _, ⟨holds, rfl⟩, rfl, rfl⟩
      obtain ⟨b, read, hb, rfl⟩ := (h.same small _ _).mp first
      exact ⟨b, read, ⟨hb, holds⟩, rfl⟩
    · rintro ⟨b, read, ⟨hb, holds⟩, rfl⟩
      exact ⟨_, rest, (h.same small _ _).mpr ⟨b, read, hb, rfl⟩, (), rest, ⟨holds, rfl⟩, rfl, rfl⟩
  shrinks := h.shrinks

/-- Another first parser that succeeds in the same way. -/
theorem congr_left {p' : Parser τ ε α} (h : Agrees size p q forget accepted)
    (same : ∀ input a rest, p' input = .ok (a, rest) ↔ p input = .ok (a, rest)) :
    Agrees size p' q forget accepted where
  same small a rest := (same _ a rest).trans (h.same small a rest)
  shrinks := h.shrinks

theorem congr {other : β → α} {checked : β → Prop} (h : Agrees size p q forget accepted)
    (same : ∀ b, forget b = other b) (iff : ∀ b, accepted b ↔ checked b) :
    Agrees size p q other checked where
  same small a rest := by simp only [h.same small a rest, same, iff]
  shrinks := h.shrinks

theorem collectN (h : Agrees size p q forget accepted) (count : Nat) :
    Agrees size (Parser.collectN p count) (Parser.collectN q count) (List.map forget)
      fun items => ∀ item ∈ items, accepted item := by
  induction count with
  | zero => exact pure (by simp) rfl
  | succ count ih =>
    have keep (b : β) (bs : List β) : Agrees size
        (Pure.pure (forget b :: bs.map forget) : Parser τ ε (List α))
        (Pure.pure (b :: bs) : Parser τ ε' (List β)) (List.map forget) fun _ => True :=
      pure trivial rfl
    have others (b : β) : Agrees size
        (Parser.collectN p count >>= fun rest => Pure.pure (forget b :: rest))
        (Parser.collectN q count >>= fun rest => Pure.pure (b :: rest)) (List.map forget)
        fun items => ∀ item ∈ items.tail, accepted item :=
      ih.bind_kept _ (fun bs => keep b bs) fun bs => Yields.pure (by simp)
    exact h.bind_kept _ others fun b => Yields.bind fun bs => Yields.pure List.forall_mem_cons

theorem collectN_same {q : Parser τ ε' α} (h : Same size p q) (count : Nat) :
    Same size (Parser.collectN p count) (Parser.collectN q count) :=
  (h.collectN count).congr (fun _ => List.map_id _) fun _ => by simp

end Agrees

end NpaCore.Parser
