import Mathlib.Data.List.Basic
import NpaCore.Lib.Result

/-!
# Parsers and encodings

`Parser τ ε α` reads a value from the front of a list of tokens and returns it with
the tokens that are left, or fails.

## Main definitions

`Parser.Reads`: the parser succeeds on exactly the encodings of the valid values, each
followed by anything. It says both that reading undoes writing and that nothing else is
read, with a rule for each way to build a parser.
-/

namespace NpaCore

def Parser (τ ε α : Type) := List τ → Except ε (α × List τ)

namespace Parser

variable {τ ε α β : Type}

def bind (p : Parser τ ε α) (f : α → Parser τ ε β) : Parser τ ε β := fun input =>
  match p input with
  | .ok (a, rest) => f a rest
  | .error e => .error e

instance : Monad (Parser τ ε) where
  pure a := fun input => .ok (a, input)
  bind := bind

def fail (error : ε) : Parser τ ε α := fun _ => .error error

/-- A check that reads nothing. -/
def ensure (condition : Bool) (error : ε) : Parser τ ε Unit :=
  if condition then pure () else fail error

/-- The tokens that are left, without reading them. -/
def remaining : Parser τ ε (List τ) := fun input => .ok (input, input)

/-- The next token. -/
def token (error : ε) : Parser τ ε τ
  | [] => .error error
  | t :: rest => .ok (t, rest)

/-- The next `count` tokens. -/
def take (error : ε) (count : Nat) : Parser τ ε (List τ) := fun input =>
  if count ≤ input.length then .ok (input.take count, input.drop count) else .error error

/-- `count` values one after another. -/
def collectN (p : Parser τ ε α) : Nat → Parser τ ε (List α)
  | 0 => pure []
  | count + 1 => do
    let a ← p
    let rest ← collectN p count
    pure (a :: rest)

/-! ### What a successful parser read -/

variable {input rest : List τ}

theorem bind_eq_ok {p : Parser τ ε α} {f : α → Parser τ ε β} {b : β} :
    (p >>= f) input = .ok (b, rest) ↔
      ∃ a middle, p input = .ok (a, middle) ∧ f a middle = .ok (b, rest) := by
  change bind p f input = _ ↔ _
  unfold bind
  rcases p input with _ | ⟨a, middle⟩
  · simp
  · simp

theorem pure_eq_ok {a b : α} :
    (pure a : Parser τ ε α) input = .ok (b, rest) ↔ a = b ∧ input = rest := by
  change Except.ok (a, input) = _ ↔ _
  simp

@[simp] theorem fail_ne_ok {error : ε} {result : α × List τ} :
    ¬ (fail error : Parser τ ε α) input = .ok result := nofun

theorem ensure_eq_ok {condition : Bool} {error : ε} {u : Unit} :
    (ensure condition error : Parser τ ε Unit) input = .ok (u, rest) ↔
      condition = true ∧ input = rest := by
  cases condition with
  | false => simp [ensure]
  | true => simp [ensure, pure_eq_ok]

theorem remaining_eq_ok {tokens : List τ} :
    (remaining : Parser τ ε (List τ)) input = .ok (tokens, rest) ↔
      tokens = input ∧ rest = input := by
  simp [remaining, eq_comm]

theorem token_eq_ok {error : ε} {t : τ} :
    token error input = .ok (t, rest) ↔ input = t :: rest := by
  cases input with
  | nil => simp [token]
  | cons first others => simp [token]

theorem take_eq_ok {error : ε} {count : Nat} {tokens : List τ} :
    take error count input = .ok (tokens, rest) ↔
      tokens.length = count ∧ input = tokens ++ rest := by
  unfold take
  split
  next le =>
    simp only [Except.ok.injEq, Prod.mk.injEq]
    constructor
    · rintro ⟨rfl, rfl⟩
      exact ⟨List.length_take_of_le le, (List.take_append_drop count input).symm⟩
    · rintro ⟨rfl, rfl⟩
      exact ⟨List.take_left, List.drop_left⟩
  next gt =>
    simp only [reduceCtorEq, false_iff, not_and]
    rintro rfl rfl
    simp at gt

/-! ### Exact parsers -/

/-- The parser succeeds on the encodings of the valid values and on nothing else. -/
def Reads (p : Parser τ ε α) (encode : α → List τ) (valid : α → Prop) : Prop :=
  ∀ input a rest, p input = .ok (a, rest) ↔ valid a ∧ input = encode a ++ rest

/-- What a parser reads back can be told from the text after it. -/
theorem Reads.unambiguous {p : Parser τ ε α} {encode : α → List τ} {valid : α → Prop}
    (h : Reads p encode valid) {a b : α} {s t : List τ} (left : valid a) (right : valid b)
    (same : encode a ++ s = encode b ++ t) : a = b ∧ s = t := by
  have first : p (encode a ++ s) = .ok (a, s) := (h _ _ _).mpr ⟨left, rfl⟩
  have second : p (encode a ++ s) = .ok (b, t) := (h _ _ _).mpr ⟨right, same⟩
  rw [first] at second
  cases second
  exact ⟨rfl, rfl⟩

theorem reads_collectN {p : Parser τ ε α} {encode : α → List τ} {valid : α → Prop}
    (h : Reads p encode valid) (count : Nat) :
    Reads (collectN p count) (fun items => items.flatMap encode) fun items =>
      items.length = count ∧ ∀ item ∈ items, valid item := by
  induction count with
  | zero =>
    intro input items rest
    rw [collectN, pure_eq_ok]
    cases items with
    | nil => simp
    | cons item items => simp
  | succ count ih =>
    intro input items rest
    simp only [collectN, bind_eq_ok, pure_eq_ok, h _ _ _, ih _ _ _]
    cases items with
    | nil => simp
    | cons item items =>
      simp only [List.cons.injEq, List.length_cons, List.mem_cons, forall_eq_or_imp,
        List.flatMap_cons, List.append_assoc]
      constructor
      · rintro ⟨a, _, ⟨ha, rfl⟩, as, _, ⟨⟨rfl, has⟩, rfl⟩, ⟨rfl, rfl⟩, rfl⟩
        exact ⟨⟨rfl, ha, has⟩, rfl⟩
      · rintro ⟨⟨length, ha, has⟩, rfl⟩
        exact ⟨item, _, ⟨ha, rfl⟩, items, rest, ⟨⟨by omega, has⟩, rfl⟩, ⟨rfl, rfl⟩, rfl⟩

/-- Values whose encodings are not empty need at least as many tokens as there are values. -/
theorem length_le_flatMap {encode : α → List τ} {items : List α}
    (nonempty : ∀ item ∈ items, encode item ≠ []) :
    items.length ≤ (items.flatMap encode).length := by
  induction items with
  | nil => simp
  | cons item items ih =>
    have first := List.length_pos_iff.mpr (nonempty item (by simp))
    have others := ih fun other mem => nonempty other (List.mem_cons_of_mem _ mem)
    simp only [List.flatMap_cons, List.length_append, List.length_cons]
    omega

end Parser

end NpaCore
