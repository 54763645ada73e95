import Mathlib.Algebra.Ring.Nat
import Mathlib.Tactic.Common
import NpaCore.Lib.Result

/-!
# Memos keyed by addresses

A recursion over nodes in memory whose parts are found at addresses. A loop over a stack
visits the parts of a node before the node, and a memo has an entry for every address that
the loop is done with. An entry keeps its node alive, so an address stands for one node as
long as the memo is used.

## Main result

`evaluate_computes`: with every memo that such runs leave behind, the value of a node, or the
error, is the one of the plain recursion.
-/

namespace NpaCore.PointerMemo

open NpaCore.Result

/-- What a recursion does with a node: `assemble` makes a result of the values of the parts, and
    the memo keeps the `value` of the result. The error `lost` stands for a missing entry. -/
structure Recursion (N V W ε : Type) where
  parts : N → List (Nat × N)
  assemble : N → List V → Except ε W
  value : W → V
  lost : ε
  turns : N → Nat
  turns_parts : ∀ node, 2 * ((parts node).map fun part => turns part.2 + 1).sum + 2 < turns node

variable {N V W ε : Type}

/-- The entries: a node that is kept alive, and its value. -/
def Memo (N V : Type) := Nat → Option (N × V)

namespace Memo

def empty : Memo N V := fun _ => none

def insert (memo : Memo N V) (arc : Nat × N) (value : V) : Memo N V := fun key =>
  if key = arc.1 then some (arc.2, value) else memo key

end Memo

section Loop

variable (R : Recursion N V W ε)

/-- The turns on a list of parts that are evaluated one after the other. -/
def partsTurns (parts : List (Nat × N)) : Nat := (parts.map fun part => R.turns part.2 + 2).sum

/-- The turns that are left in the loop. -/
def pendingTurns (pending : List ((Nat × N) × Bool)) : Nat :=
  (pending.map fun frame =>
    if frame.2 then partsTurns R (R.parts frame.1.2) + 2 else R.turns frame.1.2).sum

variable {R}

theorem pendingTurns_cons (arc : Nat × N) (exiting : Bool) (pending : List ((Nat × N) × Bool)) :
    pendingTurns R ((arc, exiting) :: pending) =
      (if exiting then partsTurns R (R.parts arc.2) + 2 else R.turns arc.2) +
        pendingTurns R pending := rfl

theorem sum_map_add (parts : List (Nat × N)) (k : Nat) :
    (parts.map fun part => R.turns part.2 + k).sum =
      (parts.map fun part => R.turns part.2).sum + k * parts.length := by
  induction parts with
  | nil => simp
  | cons part parts ih =>
    simp only [List.map_cons, List.sum_cons, List.length_cons, ih, Nat.mul_add, Nat.mul_one]
    omega

theorem pendingTurns_visit (arc : Nat × N) (pending : List ((Nat × N) × Bool)) :
    pendingTurns R ((R.parts arc.2).map (·, false) ++ (arc, true) :: pending) <
      pendingTurns R ((arc, false) :: pending) := by
  have opened : pendingTurns R ((R.parts arc.2).map (·, false)) =
      ((R.parts arc.2).map fun part => R.turns part.2).sum := by
    rw [pendingTurns, List.map_map]
    rfl
  have split : pendingTurns R ((R.parts arc.2).map (·, false) ++ (arc, true) :: pending) =
      pendingTurns R ((R.parts arc.2).map (·, false)) +
        pendingTurns R ((arc, true) :: pending) := by
    simp only [pendingTurns, List.map_append, List.sum_append]
  have bound := R.turns_parts arc.2
  rw [split, opened, pendingTurns_cons, pendingTurns_cons, partsTurns]
  simp only [sum_map_add] at bound ⊢
  simp only [if_true, Bool.false_eq_true, if_false]
  omega

theorem turns_pos (node : N) : 0 < R.turns node := by
  have := R.turns_parts node
  omega

theorem pendingTurns_rest (arc : Nat × N) (exiting : Bool) (pending : List ((Nat × N) × Bool)) :
    pendingTurns R pending < pendingTurns R ((arc, exiting) :: pending) := by
  rw [pendingTurns_cons]
  have := turns_pos (R := R) arc.2
  split <;> omega

variable (R)

mutual

/-- The result of a node, with its parts from the memo. -/
def evaluate (node : N) (memo : Memo N V) : Except ε (W × Memo N V) := do
  let (values, memo) ← evaluateParts (R.parts node) memo
  let result ← R.assemble node values
  .ok (result, memo)
  termination_by partsTurns R (R.parts node) + 1

/-- The values of parts, from left to right. -/
def evaluateParts : List (Nat × N) → Memo N V → Except ε (List V × Memo N V)
  | [], memo => .ok ([], memo)
  | part :: parts, memo => do
    let (value, memo) ← evaluateArc part memo
    let (values, memo) ← evaluateParts parts memo
    .ok (value :: values, memo)
  termination_by parts => partsTurns R parts
  decreasing_by all_goals (simp [partsTurns]; try omega)

/-- The value of the node at an address. -/
def evaluateArc (arc : Nat × N) (memo : Memo N V) : Except ε (V × Memo N V) :=
  match memo arc.1 with
  | some (_, value) => .ok (value, memo)
  | none => do
    let memo ← fill [(arc, false)] memo
    let entry ← Result.okOr (memo arc.1) R.lost
    .ok (entry.2, memo)
  termination_by R.turns arc.2 + 1
  decreasing_by simp [pendingTurns]

/-- The loop, from the top of the stack. -/
def fill : List ((Nat × N) × Bool) → Memo N V → Except ε (Memo N V)
  | [], memo => .ok memo
  | (arc, exiting) :: pending, memo =>
    if (memo arc.1).isSome then fill pending memo
    else if exiting then do
      let (result, memo) ← evaluate arc.2 memo
      fill pending (memo.insert arc (R.value result))
    else fill ((R.parts arc.2).map (·, false) ++ (arc, true) :: pending) memo
  termination_by pending => pendingTurns R pending
  decreasing_by
    · exact pendingTurns_rest arc exiting pending
    · subst exiting
      rw [pendingTurns_cons, if_pos rfl]
      omega
    · exact pendingTurns_rest arc exiting pending
    · rw [Bool.not_eq_true] at *
      subst exiting
      exact pendingTurns_visit arc pending

end

end Loop

/-! ### Memory -/

/-- The plain recursion: the result of a node by the values of its parts. -/
structure Recursion.Solved (R : Recursion N V W ε) (result : N → Except ε W) : Prop where
  eq : ∀ node, result node = do
    let values ← Result.collect (R.parts node) fun part => R.value <$> result part.2
    R.assemble node values

/-- The parts of the node are where their addresses say, and so are the parts below them. -/
inductive Recursion.Lives (R : Recursion N V W ε) (heap : Nat → Option N) : N → Prop where
  | intro {node : N} : (∀ part ∈ R.parts node, heap part.1 = some part.2) →
    (∀ part ∈ R.parts node, R.Lives heap part.2) → R.Lives heap node

section Correct

variable (R : Recursion N V W ε) (heap : Nat → Option N) (result : N → Except ε W)

/-- The node is at its address, and its parts are at theirs. -/
def Recursion.Holds (arc : Nat × N) : Prop := heap arc.1 = some arc.2 ∧ R.Lives heap arc.2

/-- An entry anchors the node at its address and has the value of that node. -/
structure Kept (memo : Memo N V) : Prop where
  anchored : ∀ key node value, memo key = some (node, value) → R.Holds heap (key, node)
  correct : ∀ key node value, memo key = some (node, value) → R.value <$> result node = .ok value

variable {R heap result}

theorem Recursion.Lives.holds {node : N} (lives : R.Lives heap node) :
    ∀ part ∈ R.parts node, R.Holds heap part := by
  cases lives with
  | intro placed below => exact fun part mem => ⟨placed part mem, below part mem⟩

variable {memo : Memo N V} {arc : Nat × N}

/-- An address holds one node, so an entry that is found there is about that node. -/
theorem Kept.entry_eq (kept : Kept R heap result memo)
    (holds : R.Holds heap arc) {anchor : N} {value : V} (entry : memo arc.1 = some (anchor, value)) :
    R.value <$> result arc.2 = .ok value := by
  have same : some anchor = some arc.2 := (kept.anchored _ _ _ entry).1.symm.trans holds.1
  cases same
  exact kept.correct _ _ _ entry

theorem Memo.insert_eq_some {value : V} {key : Nat}
    {entry : N × V} (h : memo.insert arc value key = some entry) :
    (key = arc.1 ∧ entry = (arc.2, value)) ∨ memo key = some entry := by
  unfold Memo.insert at h
  split at h
  next same => exact .inl ⟨same, (Option.some.inj h).symm⟩
  next => exact .inr h

theorem Kept.insert (kept : Kept R heap result memo)
    (holds : R.Holds heap arc) {value : V} (correct : R.value <$> result arc.2 = .ok value) :
    Kept R heap result (memo.insert arc value) where
  anchored key node found entry := by
    rcases Memo.insert_eq_some entry with ⟨rfl, same⟩ | old
    · cases same
      exact holds
    · exact kept.anchored _ _ _ old
  correct key node found entry := by
    rcases Memo.insert_eq_some entry with ⟨rfl, same⟩ | old
    · cases same
      exact correct
    · exact kept.correct _ _ _ old

/-- No entry is lost or changed. -/
def Memo.Extends (memo memo' : Memo N V) : Prop :=
  ∀ key entry, memo key = some entry → memo' key = some entry

theorem Memo.extends_insert (new : memo arc.1 = none) (value : V) :
    memo.Extends (memo.insert arc value) := by
  intro key entry old
  have different : key ≠ arc.1 := by
    rintro rfl
    rw [new] at old
    cases old
  simpa [Memo.insert, different] using old

/-! ### The loop -/

variable {pending : List ((Nat × N) × Bool)}

theorem fill_known {exiting : Bool} (known : (memo arc.1).isSome) :
    fill R ((arc, exiting) :: pending) memo = fill R pending memo := by
  rw [fill, if_pos known]

theorem fill_enter (new : memo arc.1 = none) :
    fill R ((arc, false) :: pending) memo =
      fill R ((R.parts arc.2).map (·, false) ++ (arc, true) :: pending) memo := by
  rw [fill, if_neg (by simp [new]), if_neg (by simp)]

theorem fill_exit (new : memo arc.1 = none) :
    fill R ((arc, true) :: pending) memo = (do
      let (found, memo) ← evaluate R arc.2 memo
      fill R pending (memo.insert arc (R.value found))) := by
  rw [fill, if_neg (by simp [new]), if_pos rfl]

/-- Parts that have their entries are read off the memo. -/
theorem evaluateParts_of_entries (kept : Kept R heap result memo)
    {parts : List (Nat × N)} (holds : ∀ part ∈ parts, R.Holds heap part)
    (entries : ∀ part ∈ parts, ∃ entry, memo part.1 = some entry) :
    ∃ values, Result.collect parts (fun part => R.value <$> result part.2) = .ok values ∧
      evaluateParts R parts memo = .ok (values, memo) := by
  induction parts with
  | nil => exact ⟨[], rfl, by rw [evaluateParts]⟩
  | cons part parts ih =>
    obtain ⟨values, collected, evaluated⟩ :=
      ih (fun other mem => holds other (List.mem_cons_of_mem _ mem))
        fun other mem => entries other (List.mem_cons_of_mem _ mem)
    obtain ⟨⟨anchor, value⟩, entry⟩ := entries part List.mem_cons_self
    have first := kept.entry_eq (holds part List.mem_cons_self) entry
    have hit : evaluateArc R part memo = .ok (value, memo) := by
      rw [evaluateArc, entry]
    refine ⟨value :: values, ?_, ?_⟩
    · rw [Result.collect, first, ok_bind, collected, ok_bind]
    · rw [evaluateParts, hit, ok_bind]
      dsimp only
      rw [evaluated, ok_bind]

theorem evaluate_of_entries (solved : R.Solved result)
    (kept : Kept R heap result memo) {node : N} (lives : R.Lives heap node)
    (entries : ∀ part ∈ R.parts node, ∃ entry, memo part.1 = some entry) :
    evaluate R node memo = (do
      let found ← result node
      .ok (found, memo)) := by
  obtain ⟨values, collected, evaluated⟩ := evaluateParts_of_entries kept lives.holds entries
  rw [evaluate, evaluated, ok_bind, solved.eq node, collected, ok_bind]

variable (R heap result) in
/-- The loop does away with the frames on top of the stack, whatever is below them. -/
structure Passes (frames : List ((Nat × N) × Bool)) (memo memo' : Memo N V) : Prop where
  kept : Kept R heap result memo'
  extending : memo.Extends memo'
  runs : ∀ pending, fill R (frames ++ pending) memo = fill R pending memo'

variable (R heap result) in
/-- What comes of the frames of an arc: its entry, or its error. -/
structure Visited (frames : List ((Nat × N) × Bool)) (arc : Nat × N) (memo : Memo N V) : Prop where
  entered : ∀ value, R.value <$> result arc.2 = .ok value → ∃ memo',
    Passes R heap result frames memo memo' ∧ ∃ anchor, memo' arc.1 = some (anchor, value)
  failed : ∀ e, R.value <$> result arc.2 = .error e → ∀ pending,
    fill R (frames ++ pending) memo = .error e

/-- The parts of a node are visited one after the other. -/
theorem visit_parts {parts : List (Nat × N)}
    (each : ∀ part ∈ parts, ∀ memo, Kept R heap result memo →
      Visited R heap result [(part, false)] part memo) (memo : Memo N V)
    (kept : Kept R heap result memo) :
    (∀ values, Result.collect parts (fun part => R.value <$> result part.2) = .ok values →
      ∃ memo', Passes R heap result (parts.map (·, false)) memo memo' ∧
        ∀ part ∈ parts, ∃ entry, memo' part.1 = some entry) ∧
    ∀ e, Result.collect parts (fun part => R.value <$> result part.2) = .error e →
      ∀ pending, fill R (parts.map (·, false) ++ pending) memo = .error e := by
  induction parts generalizing memo with
  | nil =>
    refine ⟨fun _ _ => ⟨memo, ⟨kept, fun _ _ => id, fun _ => rfl⟩, ?_⟩, nofun⟩
    exact fun part mem => absurd mem List.not_mem_nil
  | cons part parts ih =>
    have visited := each part List.mem_cons_self memo kept
    have rest := ih fun other mem => each other (List.mem_cons_of_mem _ mem)
    constructor
    · intro values collected
      obtain ⟨value, first, collected⟩ := bind_eq_ok.mp collected
      obtain ⟨others, collected, _⟩ := bind_eq_ok.mp collected
      obtain ⟨memo₁, passes₁, anchor, entry⟩ := visited.entered value first
      obtain ⟨memo₂, passes₂, entries⟩ := (rest memo₁ passes₁.kept).1 others collected
      refine ⟨memo₂, ⟨passes₂.kept, fun key old h => passes₂.extending _ _ (passes₁.extending _ _ h),
        fun pending => ?_⟩, ?_⟩
      · exact (passes₁.runs (parts.map (·, false) ++ pending)).trans (passes₂.runs pending)
      · intro other mem
        rcases List.mem_cons.mp mem with rfl | mem
        · exact ⟨_, passes₂.extending _ _ entry⟩
        · exact entries other mem
    · intro e collected pending
      cases first : R.value <$> result part.2 with
      | error e' =>
        rw [Result.collect, first] at collected
        cases collected
        exact visited.failed e first (parts.map (·, false) ++ pending)
      | ok value =>
        obtain ⟨memo₁, passes₁, _⟩ := visited.entered value first
        have collected' : Result.collect parts (fun part => R.value <$> result part.2) = .error e := by
          rw [Result.collect, first, ok_bind] at collected
          cases later : Result.collect parts fun part => R.value <$> result part.2 with
          | error e' =>
            rw [later] at collected
            exact collected
          | ok values =>
            rw [later] at collected
            cases collected
        rw [List.map_cons, List.cons_append]
        exact (passes₁.runs (parts.map (·, false) ++ pending)).trans
          ((rest memo₁ passes₁.kept).2 e collected' pending)

/-- An entry for the node is about the node itself, so the loop may skip it. -/
theorem visited_known (holds : R.Holds heap arc)
    (kept : Kept R heap result memo) {entry : N × V} (known : memo arc.1 = some entry)
    (exiting : Bool) : Visited R heap result [(arc, exiting)] arc memo := by
  have correct := kept.entry_eq holds known
  constructor
  · intro value found
    rw [correct] at found
    cases found
    refine ⟨memo, ⟨kept, fun _ _ => id, fun pending => ?_⟩, entry.1, known⟩
    exact fill_known (by simp [known])
  · intro e failed
    rw [correct] at failed
    cases failed

/-- What is left of a visit when the parts have their entries: the node itself. -/
theorem visited_exit (solved : R.Solved result) (holds : R.Holds heap arc)
    (kept : Kept R heap result memo)
    (entries : ∀ part ∈ R.parts arc.2, ∃ entry, memo part.1 = some entry) :
    Visited R heap result [(arc, true)] arc memo := by
  cases known : memo arc.1 with
  | some entry => exact visited_known holds kept known true
  | none =>
    have evaluated := evaluate_of_entries solved kept holds.2 entries
    constructor
    · intro value correct
      obtain ⟨found, found_ok, rfl⟩ := map_eq_ok.mp correct
      refine ⟨memo.insert arc (R.value found), ⟨kept.insert holds correct,
        Memo.extends_insert known _, fun pending => ?_⟩, arc.2, by simp [Memo.insert]⟩
      rw [List.singleton_append, fill_exit known, evaluated, found_ok, ok_bind, ok_bind]
    · intro e failed pending
      have found_error : result arc.2 = .error e := by
        cases found : result arc.2 with
        | error e' =>
          rw [found] at failed
          cases failed
          rfl
        | ok value =>
          rw [found] at failed
          cases failed
      rw [List.singleton_append, fill_exit known, evaluated, found_error]
      rfl

/-- The induction is on the node: its parts are visited first, then it is assembled from
    their entries. -/
theorem visit (solved : R.Solved result) {node : N} (lives : R.Lives heap node) {addr : Nat}
    (placed : heap addr = some node) (kept : Kept R heap result memo) :
    Visited R heap result [((addr, node), false)] (addr, node) memo := by
  induction lives generalizing addr memo with
  | @intro node partsPlaced below ih =>
    have lives : R.Lives heap node := .intro partsPlaced below
    cases known : memo addr with
    | some entry => exact visited_known ⟨placed, lives⟩ kept known false
    | none =>
      have parts := visit_parts (fun part mem memo kept =>
        ih part mem (partsPlaced part mem) kept) memo kept
      have enters : ∀ pending, fill R ([((addr, node), false)] ++ pending) memo =
          fill R ((R.parts node).map (·, false) ++ ([((addr, node), true)] ++ pending)) memo :=
        fun pending => fill_enter known
      cases collected : Result.collect (R.parts node) fun part => R.value <$> result part.2 with
      | error e =>
        have failed : result node = .error e := by
          rw [solved.eq, collected]
          rfl
        constructor
        · intro value correct
          simp only at correct
          rw [failed] at correct
          cases correct
        · intro e' failed' pending
          simp only at failed'
          rw [failed] at failed'
          cases failed'
          rw [enters]
          exact parts.2 e collected _
      | ok values =>
        obtain ⟨memo₁, passes, entries⟩ := parts.1 values collected
        have holds : R.Holds heap (addr, node) := ⟨placed, lives⟩
        have exits := visited_exit solved holds passes.kept entries
        constructor
        · intro value correct
          obtain ⟨memo₂, passes', entered⟩ := exits.entered value correct
          refine ⟨memo₂, ⟨passes'.kept, fun key old h => passes'.extending _ _
            (passes.extending _ _ h), fun pending => ?_⟩, entered⟩
          rw [enters, passes.runs, passes'.runs]
        · intro e failed pending
          rw [enters, passes.runs, exits.failed e failed]

/-! ### The functions with the memo -/

variable (R heap result) in
/-- From every memo that is kept, the run has this result and leaves a memo that is kept. -/
structure Computes {A : Type} (run : Memo N V → Except ε (A × Memo N V)) (found : Except ε A) :
    Prop where
  ok : ∀ a, found = .ok a → ∀ memo, Kept R heap result memo →
    ∃ memo', Kept R heap result memo' ∧ run memo = .ok (a, memo')
  error : ∀ e, found = .error e → ∀ memo, Kept R heap result memo → run memo = .error e

theorem evaluateArc_computes (solved : R.Solved result) (holds : R.Holds heap arc) :
    Computes R heap result (evaluateArc R arc) (R.value <$> result arc.2) := by
  constructor
  · intro value correct memo kept
    rw [evaluateArc]
    cases known : memo arc.1 with
    | some entry =>
      have found := kept.entry_eq holds known
      rw [correct] at found
      cases found
      exact ⟨memo, kept, rfl⟩
    | none =>
      obtain ⟨memo', passes, anchor, entry⟩ := (visit solved holds.2 holds.1 kept).entered value correct
      have filled : fill R [(arc, false)] memo = .ok memo' := by
        rw [← List.append_nil [(arc, false)], passes.runs, fill]
      have entry : memo' arc.1 = some (anchor, value) := entry
      refine ⟨memo', passes.kept, ?_⟩
      dsimp only
      rw [filled, ok_bind, entry]
      rfl
  · intro e failed memo kept
    rw [evaluateArc]
    cases known : memo arc.1 with
    | some entry =>
      have found := kept.entry_eq holds known
      rw [failed] at found
      cases found
    | none =>
      have filled := (visit solved holds.2 holds.1 kept).failed e failed []
      rw [List.append_nil] at filled
      dsimp only
      rw [filled]
      rfl

theorem evaluateParts_computes (solved : R.Solved result) {parts : List (Nat × N)}
    (holds : ∀ part ∈ parts, R.Holds heap part) :
    Computes R heap result (evaluateParts R parts)
      (Result.collect parts fun part => R.value <$> result part.2) := by
  induction parts with
  | nil =>
    constructor
    · intro values collected memo kept
      cases collected
      exact ⟨memo, kept, by rw [evaluateParts]⟩
    · exact nofun
  | cons part parts ih =>
    have first := evaluateArc_computes solved (holds part List.mem_cons_self)
    have rest := ih fun other mem => holds other (List.mem_cons_of_mem _ mem)
    constructor
    · intro values collected memo kept
      obtain ⟨value, value_ok, collected⟩ := bind_eq_ok.mp collected
      obtain ⟨others, others_ok, same⟩ := bind_eq_ok.mp collected
      cases same
      obtain ⟨memo₁, kept₁, ran₁⟩ := first.ok value value_ok memo kept
      obtain ⟨memo₂, kept₂, ran₂⟩ := rest.ok others others_ok memo₁ kept₁
      refine ⟨memo₂, kept₂, ?_⟩
      rw [evaluateParts, ran₁, ok_bind]
      dsimp only
      rw [ran₂, ok_bind]
    · intro e failed memo kept
      rw [Result.collect] at failed
      cases value_eq : R.value <$> result part.2 with
      | error e' =>
        rw [value_eq] at failed
        cases failed
        rw [evaluateParts, first.error e value_eq memo kept]
        rfl
      | ok value =>
        obtain ⟨memo₁, kept₁, ran₁⟩ := first.ok value value_eq memo kept
        rw [value_eq, ok_bind] at failed
        cases others_eq : Result.collect parts fun part => R.value <$> result part.2 with
        | ok others =>
          rw [others_eq] at failed
          cases failed
        | error e' =>
          rw [others_eq] at failed
          cases failed
          rw [evaluateParts, ran₁, ok_bind]
          dsimp only
          rw [rest.error e others_eq memo₁ kept₁]
          rfl

/-- The function with the memo computes what the plain recursion computes. -/
theorem evaluate_computes (solved : R.Solved result) {node : N} (lives : R.Lives heap node) :
    Computes R heap result (evaluate R node) (result node) := by
  have parts := evaluateParts_computes solved lives.holds
  constructor
  · intro found found_ok memo kept
    rw [solved.eq] at found_ok
    obtain ⟨values, values_ok, assembled⟩ := bind_eq_ok.mp found_ok
    obtain ⟨memo', kept', ran⟩ := parts.ok values values_ok memo kept
    refine ⟨memo', kept', ?_⟩
    rw [evaluate, ran, ok_bind]
    dsimp only
    rw [assembled, ok_bind]
  · intro e failed memo kept
    rw [solved.eq] at failed
    cases collected : Result.collect (R.parts node) fun part => R.value <$> result part.2 with
    | error e' =>
      rw [collected] at failed
      cases failed
      rw [evaluate, parts.error e collected memo kept]
      rfl
    | ok values =>
      obtain ⟨memo', kept', ran⟩ := parts.ok values collected memo kept
      rw [collected, ok_bind] at failed
      rw [evaluate, ran, ok_bind]
      dsimp only
      rw [failed]
      rfl

end Correct

end NpaCore.PointerMemo
