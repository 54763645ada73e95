import NpaCore.Lib.Run

/-!
# Computations that pay from a supply of fuel

A metered computation is described by what it returns and leaves from each supply:
`Spending ε α` relates a supply to a result and a rest. When the computation looks
at the supply only to see whether it is used up, a success has a cost, the same from
every supply, and a supply below the cost is used up (`Spending.Regular`). A memo
that replays the cost of a success is then not noticed.

`Machine` is a step function with steps that cost one unit or nothing, `Reaches`
counts the units between two states and `Finishes` is the machine as a `Spending`.
-/

namespace NpaCore

/-- The result and the rest that a computation may have from a supply. -/
def Spending (ε α : Type) := Nat → Except ε α → Nat → Prop

namespace Spending

variable {ε α β : Type}

/-- The result is fixed and nothing is spent. -/
def done (result : Except ε α) : Spending ε α := fun fuel r left => r = result ∧ left = fuel

/-- One unit, or the error when there is none. -/
def spend (limit : ε) : Spending ε Unit := fun fuel r left =>
  (fuel = 0 ∧ r = .error limit ∧ left = 0) ∨ (fuel = left + 1 ∧ r = .ok ())

def bind (x : Spending ε α) (f : α → Spending ε β) : Spending ε β := fun fuel r left =>
  (∃ e, x fuel (.error e) left ∧ r = .error e) ∨
    ∃ a middle, x fuel (.ok a) middle ∧ f a middle r left

/-- What a computation does that only asks whether its supply is used up, and then fails
    with `limit`. -/
structure Regular (limit : ε) (x : Spending ε α) : Prop where
  deterministic : ∀ {fuel r left r' left'}, x fuel r left → x fuel r' left' → r = r' ∧ left = left'
  le : ∀ {fuel r left}, x fuel r left → left ≤ fuel
  enough : ∀ {fuel a left}, x fuel (.ok a) left →
    ∀ other, x (other + (fuel - left)) (.ok a) other
  short : ∀ {fuel a left}, x fuel (.ok a) left →
    ∀ other, other < fuel - left → x other (.error limit) 0

variable {limit : ε}

/-- More in the supply is more in the rest. -/
theorem Regular.add {x : Spending ε α} (regular : Regular limit x) {fuel left : Nat} {a : α}
    (h : x fuel (.ok a) left) (k : Nat) : x (fuel + k) (.ok a) (left + k) := by
  have le := regular.le h
  have found := regular.enough h (left + k)
  have supply : left + k + (fuel - left) = fuel + k := by omega
  rwa [supply] at found

/-- Two successes may change places: together they cost the same. -/
theorem Regular.swap {limit' : ε} {x : Spending ε α} {y : Spending ε β} (hx : Regular limit x)
    (hy : Regular limit' y) {fuel middle left : Nat} {a : α} {b : β}
    (first : x fuel (.ok a) middle) (second : y middle (.ok b) left) :
    ∃ between, y fuel (.ok b) between ∧ x between (.ok a) left := by
  have le := hx.le first
  have le' := hy.le second
  refine ⟨fuel - (middle - left), ?_, ?_⟩
  · have paid := hy.enough second (fuel - (middle - left))
    rwa [Nat.sub_add_cancel (by omega)] at paid
  · have paid := hx.enough first left
    have supply : left + (fuel - middle) = fuel - (middle - left) := by omega
    rwa [supply] at paid

theorem regular_done (result : Except ε α) : Regular limit (done result) where
  deterministic := by
    rintro fuel r left r' left' ⟨rfl, rfl⟩ ⟨rfl, rfl⟩
    exact ⟨rfl, rfl⟩
  le := by
    rintro fuel r left ⟨_, rfl⟩
    exact Nat.le_refl _
  enough := by
    rintro fuel a left ⟨same, rfl⟩ other
    exact ⟨same, by omega⟩
  short := by
    rintro fuel a left ⟨_, rfl⟩ other below
    omega

theorem regular_spend : Regular limit (spend limit) where
  deterministic := by
    rintro fuel r left r' left' (⟨rfl, rfl, rfl⟩ | ⟨rfl, rfl⟩) (⟨none, rfl, rfl⟩ | ⟨one, rfl⟩)
    · exact ⟨rfl, rfl⟩
    · omega
    · omega
    · exact ⟨rfl, by omega⟩
  le := by
    rintro fuel r left (⟨_, _, rfl⟩ | ⟨rfl, _⟩)
    · exact Nat.zero_le _
    · omega
  enough := by
    rintro fuel a left (⟨_, failed, _⟩ | ⟨rfl, _⟩) other
    · cases failed
    · exact .inr ⟨by omega, rfl⟩
  short := by
    rintro fuel a left (⟨_, failed, _⟩ | ⟨rfl, _⟩) other below
    · cases failed
    · exact .inl ⟨by omega, rfl, rfl⟩

theorem regular_bind {x : Spending ε α} {f : α → Spending ε β} (hx : Regular limit x)
    (hf : ∀ a, Regular limit (f a)) : Regular limit (bind x f) where
  deterministic := by
    rintro fuel r left r' left' (⟨e, first, rfl⟩ | ⟨a, middle, first, rest⟩)
      (⟨e', first', rfl⟩ | ⟨a', middle', first', rest'⟩)
    · obtain ⟨same, rfl⟩ := hx.deterministic first first'
      cases same
      exact ⟨rfl, rfl⟩
    · cases (hx.deterministic first first').1
    · cases (hx.deterministic first first').1
    · obtain ⟨same, rfl⟩ := hx.deterministic first first'
      cases same
      exact (hf a).deterministic rest rest'
  le := by
    rintro fuel r left (⟨e, first, _⟩ | ⟨a, middle, first, rest⟩)
    · exact hx.le first
    · exact Nat.le_trans ((hf a).le rest) (hx.le first)
  enough := by
    rintro fuel b left (⟨e, _, failed⟩ | ⟨a, middle, first, rest⟩) other
    · cases failed
    · have below := hx.le first
      have below' := (hf a).le rest
      refine .inr ⟨a, other + (middle - left), ?_, (hf a).enough rest other⟩
      have supply : other + (fuel - left) = other + (middle - left) + (fuel - middle) := by omega
      rw [supply]
      exact hx.enough first _
  short := by
    rintro fuel b left (⟨e, _, failed⟩ | ⟨a, middle, first, rest⟩) other below
    · cases failed
    · have hle := hx.le first
      have hle' := (hf a).le rest
      -- the supply ends in the first part or, when that part can be paid, in the second
      by_cases early : other < fuel - middle
      · exact .inl ⟨limit, hx.short first other early, rfl⟩
      · refine .inr ⟨a, other - (fuel - middle), ?_, (hf a).short rest _ (by omega)⟩
        have paid := hx.enough first (other - (fuel - middle))
        rwa [Nat.sub_add_cancel (by omega)] at paid

theorem bind_mono {x x' : Spending ε α} {f f' : α → Spending ε β}
    (hx : ∀ {fuel r left}, x fuel r left → x' fuel r left)
    (hf : ∀ a {fuel r left}, f a fuel r left → f' a fuel r left) {fuel : Nat} {r : Except ε β}
    {left : Nat} (h : bind x f fuel r left) : bind x' f' fuel r left := by
  rcases h with ⟨e, first, rfl⟩ | ⟨a, middle, first, rest⟩
  · exact .inl ⟨e, hx first, rfl⟩
  · exact .inr ⟨a, middle, hx first, hf a rest⟩

/-- Two questions, the second only after a positive answer to the first. -/
def both (x y : Spending ε Bool) : Spending ε Bool :=
  x.bind fun yes => if yes then y else done (.ok false)

/-- A positive answer is one of both questions. -/
theorem both_true {x y : Spending ε Bool} {fuel left : Nat} (h : x.both y fuel (.ok true) left) :
    ∃ middle, x fuel (.ok true) middle ∧ y middle (.ok true) left := by
  rcases h with ⟨e, _, failed⟩ | ⟨yes, middle, first, rest⟩
  · cases failed
  · cases yes with
    | true => exact ⟨middle, first, rest⟩
    | false => cases rest.1

theorem regular_both {x y : Spending ε Bool} (hx : Regular limit x) (hy : Regular limit y) :
    Regular limit (x.both y) := by
  refine regular_bind hx fun yes => ?_
  cases yes
  · exact regular_done _
  · exact hy

theorem both_mono {x x' y y' : Spending ε Bool}
    (hx : ∀ {fuel r left}, x fuel r left → x' fuel r left)
    (hy : ∀ {fuel r left}, y fuel r left → y' fuel r left) {fuel : Nat} {r : Except ε Bool}
    {left : Nat} (h : x.both y fuel r left) : x'.both y' fuel r left := by
  refine bind_mono hx (fun yes {fuel r left} => ?_) h
  cases yes
  · exact fun no => no
  · exact hy

end Spending

/-! ### Machines -/

/-- What a step does. -/
inductive Move (σ ε α : Type) where
  | done (value : α)
  | fail (error : ε)
  | next (state : σ)

/-- A step with its state and value translated. -/
def Move.map {σ ε α σ' α' : Type} (f : σ → σ') (g : α → α') : Move σ ε α → Move σ' ε α'
  | .done value => .done (g value)
  | .fail error => .fail error
  | .next state => .next (f state)

/-- A step function; a step from a `paid` state takes one unit. -/
structure Machine (σ ε α : Type) where
  paid : σ → Bool
  move : σ → Move σ ε α

namespace Machine

variable {σ ε α : Type} (machine : Machine σ ε α)

def cost (state : σ) : Nat := if machine.paid state then 1 else 0

/-- The machine comes from one state to another by steps that cost so much together. -/
inductive Reaches : σ → Nat → σ → Prop
  | refl (s) : Reaches s 0 s
  | step {s m t k} (h : machine.move s = .next m) (rest : Reaches m k t) :
      Reaches s (machine.cost s + k) t

/-- A run to its end: a result, a failure or the end of the supply. -/
inductive Finishes (limit : ε) : σ → Spending ε α
  | exhausted {s} (h : machine.paid s = true) : Finishes limit s 0 (.error limit) 0
  | done {s value left} (h : machine.move s = .done value) :
      Finishes limit s (machine.cost s + left) (.ok value) left
  | fail {s error left} (h : machine.move s = .fail error) :
      Finishes limit s (machine.cost s + left) (.error error) left
  | next {s t fuel r left} (h : machine.move s = .next t) (rest : Finishes limit t fuel r left) :
      Finishes limit s (machine.cost s + fuel) r left

variable {machine} {limit : ε} {s t : σ} {k fuel left : Nat}

theorem Reaches.single (h : machine.move s = .next t) : machine.Reaches s (machine.cost s) t :=
  .step h (.refl t)

theorem Reaches.trans {u : σ} {l : Nat} (first : machine.Reaches s k t)
    (second : machine.Reaches t l u) : machine.Reaches s (k + l) u := by
  induction first with
  | refl => rwa [Nat.zero_add]
  | step h _ ih =>
    rw [Nat.add_assoc]
    exact .step h (ih second)

theorem Reaches.finishes {r : Except ε α} (reaches : machine.Reaches s k t)
    (rest : machine.Finishes limit t fuel r left) : machine.Finishes limit s (k + fuel) r left := by
  induction reaches with
  | refl => rwa [Nat.zero_add]
  | step h _ ih =>
    rw [Nat.add_assoc]
    exact .next h (ih rest)

/-- A supply below the cost of the way is used up on it. -/
theorem Reaches.exhausted (reaches : machine.Reaches s k t) (short : fuel < k) :
    machine.Finishes limit s fuel (.error limit) 0 := by
  induction reaches generalizing fuel with
  | refl => omega
  | @step s m t k h _ ih =>
    by_cases paid : machine.paid s = true
    · cases fuel with
      | zero => exact .exhausted paid
      | succ fuel =>
        have one : machine.cost s = 1 := by simp [cost, paid]
        have rest : machine.Finishes limit m fuel (.error limit) 0 := ih (by omega)
        have finished := Finishes.next h rest
        rwa [one, Nat.add_comm] at finished
    · have free : machine.cost s = 0 := by simp [cost, paid]
      have rest : machine.Finishes limit m fuel (.error limit) 0 := ih (by omega)
      have finished := Finishes.next h rest
      rwa [free, Nat.zero_add] at finished

theorem Finishes.le {r : Except ε α} (h : machine.Finishes limit s fuel r left) : left ≤ fuel := by
  induction h with
  | exhausted => exact Nat.le_refl _
  | done | fail => omega
  | next _ _ ih => omega

/-- A successful run is the way to the state that returns. -/
theorem Finishes.reaches {value : α} (h : machine.Finishes limit s fuel (.ok value) left) :
    ∃ t k, machine.Reaches s k t ∧ machine.move t = .done value ∧
      fuel = k + machine.cost t + left := by
  generalize result : (.ok value : Except ε α) = r at h
  induction h with
  | exhausted | fail => cases result
  | @done s found left h =>
    cases result
    exact ⟨s, 0, .refl s, h, by omega⟩
  | next h _ ih =>
    obtain ⟨t, k, way, last, supply⟩ := ih result
    exact ⟨t, _, .step h way, last, by omega⟩

theorem Finishes.deterministic {r r' : Except ε α} {left' : Nat}
    (h : machine.Finishes limit s fuel r left) (h' : machine.Finishes limit s fuel r' left') :
    r = r' ∧ left = left' := by
  -- a paid step and an empty supply exclude the other rules
  have empty : ∀ {s : σ} {k : Nat}, machine.paid s = true → machine.cost s + k ≠ 0 := by
    intro s k paid
    simp [cost, paid]
  induction h generalizing r' left' with
  | @exhausted s paid =>
    generalize hfuel : 0 = supply at h'
    cases h' with
    | exhausted => exact ⟨rfl, rfl⟩
    | done | fail | next => exact absurd hfuel.symm (empty paid)
  | @done s value left h =>
    generalize hfuel : machine.cost s + left = supply at h'
    cases h' with
    | exhausted paid => exact absurd hfuel (empty paid)
    | done other =>
      cases h.symm.trans other
      exact ⟨rfl, by omega⟩
    | fail other => cases h.symm.trans other
    | next other => cases h.symm.trans other
  | @fail s error left h =>
    generalize hfuel : machine.cost s + left = supply at h'
    cases h' with
    | exhausted paid => exact absurd hfuel (empty paid)
    | done other => cases h.symm.trans other
    | fail other =>
      cases h.symm.trans other
      exact ⟨rfl, by omega⟩
    | next other => cases h.symm.trans other
  | @next s t fuel r left h _ ih =>
    generalize hfuel : machine.cost s + fuel = supply at h'
    cases h' with
    | exhausted paid => exact absurd hfuel (empty paid)
    | done other => cases h.symm.trans other
    | fail other => cases h.symm.trans other
    | @next _ _ fuel' _ _ other rest =>
      cases h.symm.trans other
      have same : fuel = fuel' := by omega
      subst same
      exact ih rest

theorem regular_finishes (s : σ) : Spending.Regular limit (machine.Finishes limit s) where
  deterministic := Finishes.deterministic
  le := Finishes.le
  enough := by
    intro fuel value left h other
    obtain ⟨t, k, way, last, supply⟩ := h.reaches
    have stop : machine.Finishes limit t (machine.cost t + other) (.ok value) other := .done last
    have finished := way.finishes stop
    have same : other + (fuel - left) = k + (machine.cost t + other) := by omega
    rwa [same]
  short := by
    intro fuel value left h other below
    obtain ⟨t, k, way, last, supply⟩ := h.reaches
    by_cases early : other < k
    · exact way.exhausted early
    · -- the last step is the one that cannot be paid
      have paid : machine.paid t = true := by
        by_contra free
        have none : machine.cost t = 0 := by simp [cost, free]
        omega
      have one : machine.cost t = 1 := by simp [cost, paid]
      have stop : machine.Finishes limit t 0 (.error limit) 0 := .exhausted paid
      have finished := way.finishes stop
      have same : other = k + 0 := by omega
      rwa [same]

/-! ### One machine seen through another -/

variable {σ' α' : Type} {machine' : Machine σ' ε α'} {f : σ → σ'} {g : α → α'}

/-- The second machine does what the first does, seen through translations of the states and
    the values. -/
structure Translates (machine : Machine σ ε α) (machine' : Machine σ' ε α') (f : σ → σ')
    (g : α → α') : Prop where
  paid : ∀ s, machine'.paid (f s) = machine.paid s
  move : ∀ s, machine'.move (f s) = (machine.move s).map f g

theorem Translates.finishes (translates : Translates machine machine' f g) {r : Except ε α}
    (h : machine.Finishes limit s fuel r left) :
    machine'.Finishes limit (f s) fuel (r.map g) left := by
  have cost : ∀ s, machine.cost s = machine'.cost (f s) := by
    intro s
    rw [Machine.cost, Machine.cost, translates.paid]
  induction h with
  | @exhausted s paid => exact .exhausted ((translates.paid s).trans paid)
  | @done s value left move =>
    rw [cost]
    exact .done (by rw [translates.move, move]; rfl)
  | @fail s error left move =>
    rw [cost]
    exact .fail (by rw [translates.move, move]; rfl)
  | @next s t fuel r left move _ ih =>
    rw [cost]
    exact .next (by rw [translates.move, move]; rfl) ih

end Machine

end NpaCore
