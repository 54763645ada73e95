import NpaCore.Lib.Result

/-!
# Passes over tables whose nodes refer to earlier nodes

A table stores a graph without cycles: a node refers to nodes by their places, which come
before its own. One pass from the front computes a value for each node from the values of
the nodes before it.

## Main results

* `run_isOk_iff`: a pass that only fails on a missing node succeeds on the ordered tables.
* `run_matches`: two passes whose steps agree compute related values.
* `run_entry`: the value at a place, by the step at that place.
* `run_eq_runTotal`: on an ordered table no child needs to be checked.
* `runChecking_eq`: checks that are made during the pass can be made after it.
-/

namespace NpaCore.ForwardPass

open NpaCore.Result

variable {ε ε' N V W : Type}

/-- The values of the nodes of a table after the values that are done. -/
def run (step : List V → N → Except ε V) : List V → List N → Except ε (List V)
  | done, [] => .ok done
  | done, node :: rest => do
    let value ← step done node
    run step (done ++ [value]) rest

/-! ### Ordered tables -/

variable (children : N → List Nat)

/-- The nodes refer to earlier nodes only, with `seen` nodes before the first. -/
def OrderedFrom (seen : Nat) (table : List N) : Prop :=
  ∀ i node, table[i]? = some node → ∀ child ∈ children node, child < seen + i

/-- Every node refers to earlier nodes only. -/
def Ordered (table : List N) : Prop :=
  ∀ i node, table[i]? = some node → ∀ child ∈ children node, child < i

variable {children}

theorem ordered_iff_from {table : List N} :
    Ordered children table ↔ OrderedFrom children 0 table := by
  simp only [Ordered, OrderedFrom, Nat.zero_add]

theorem orderedFrom_cons {seen : Nat} {node : N} {rest : List N} :
    OrderedFrom children seen (node :: rest) ↔
      (∀ child ∈ children node, child < seen) ∧ OrderedFrom children (seen + 1) rest := by
  constructor
  · intro ordered
    refine ⟨fun child mem => ordered 0 node rfl child mem, fun i other at_i child mem => ?_⟩
    have below := ordered (i + 1) other at_i child mem
    omega
  · rintro ⟨first, others⟩ i other at_i child mem
    cases i with
    | zero =>
      obtain rfl : node = other := by simpa using at_i
      exact first child mem
    | succ i =>
      have below := others i other at_i child mem
      omega

/-! ### What a pass computes -/

variable {step : List V → N → Except ε V} {done values : List V} {nodes : List N}

theorem run_cons {node : N} {rest : List N} :
    run step done (node :: rest) = .ok values ↔
      ∃ value, step done node = .ok value ∧ run step (done ++ [value]) rest = .ok values := by
  rw [run, bind_eq_ok]

/-- The values that were done stay in front, and each node adds one. -/
theorem run_extends (h : run step done nodes = .ok values) :
    ∃ more, values = done ++ more ∧ more.length = nodes.length := by
  induction nodes generalizing done with
  | nil =>
    cases h
    exact ⟨[], by simp, rfl⟩
  | cons node rest ih =>
    obtain ⟨value, _, h⟩ := run_cons.mp h
    obtain ⟨more, rfl, length⟩ := ih h
    exact ⟨value :: more, by simp, by simp [length]⟩

theorem run_length (h : run step done nodes = .ok values) :
    values.length = done.length + nodes.length := by
  obtain ⟨more, rfl, length⟩ := run_extends h
  rw [List.length_append, length]

/-- The value at the place of a node is what its step computes from the values before. -/
theorem run_entry (h : run step done nodes = .ok values) {i : Nat} {node : N}
    (at_i : nodes[i]? = some node) :
    ∃ value, values[done.length + i]? = some value ∧
      step (values.take (done.length + i)) node = .ok value := by
  induction nodes generalizing done i with
  | nil => cases at_i
  | cons first rest ih =>
    obtain ⟨value, first_ok, h⟩ := run_cons.mp h
    cases i with
    | zero =>
      obtain rfl : first = node := by simpa using at_i
      obtain ⟨more, rfl, _⟩ := run_extends h
      exact ⟨value, by simp, by simpa using first_ok⟩
    | succ i =>
      have place : done.length + (i + 1) = (done ++ [value]).length + i := by
        simp only [List.length_append, List.length_singleton]
        omega
      rw [place]
      exact ih h at_i

theorem run_append {more : List V} (lengths : more.length = nodes.length)
    (steps : ∀ i node value, nodes[i]? = some node → more[i]? = some value →
      step (done ++ more.take i) node = .ok value) :
    run step done nodes = .ok (done ++ more) := by
  induction nodes generalizing done more with
  | nil =>
    rw [List.length_eq_zero_iff.mp lengths, List.append_nil]
    rfl
  | cons node rest ih =>
    cases more with
    | nil => cases lengths
    | cons value more =>
      have first : step done node = .ok value := by simpa using steps 0 node value rfl rfl
      have joined : done ++ value :: more = (done ++ [value]) ++ more := by simp
      rw [run, first, ok_bind, joined]
      apply ih (by simpa using lengths)
      intro i other found at_other at_found
      have later := steps (i + 1) other found at_other at_found
      simpa using later

/-- The values are those that each step computes from the ones before. -/
theorem run_of_steps (lengths : values.length = nodes.length)
    (steps : ∀ i node value, nodes[i]? = some node → values[i]? = some value →
      step (values.take i) node = .ok value) : run step [] nodes = .ok values :=
  run_append lengths steps

/-- What every successful step checks holds of every node. -/
theorem run_checks {P : N → Prop} (checks : ∀ done node value, step done node = .ok value → P node)
    (h : run step done nodes = .ok values) : ∀ node ∈ nodes, P node := by
  intro node mem
  obtain ⟨i, at_i⟩ := List.mem_iff_getElem?.mp mem
  obtain ⟨value, _, at_step⟩ := run_entry h at_i
  exact checks _ node value at_step

/-- A step that fails on missing children only. -/
theorem run_isOk_iff
    (steps : ∀ node ∈ nodes, ∀ done,
      (∃ value, step done node = .ok value) ↔ ∀ child ∈ children node, child < done.length) :
    (∃ values, run step done nodes = .ok values) ↔ OrderedFrom children done.length nodes := by
  induction nodes generalizing done with
  | nil => simp [run, OrderedFrom]
  | cons node rest ih =>
    obtain ⟨first, others⟩ := List.forall_mem_cons.mp steps
    have tail : ∀ value, (∃ values, run step (done ++ [value]) rest = .ok values) ↔
        OrderedFrom children (done.length + 1) rest := by
      intro value
      rw [ih others, List.length_append, List.length_singleton]
    rw [orderedFrom_cons, ← first done]
    constructor
    · rintro ⟨values, h⟩
      obtain ⟨value, first_ok, h⟩ := run_cons.mp h
      exact ⟨⟨value, first_ok⟩, (tail value).mp ⟨values, h⟩⟩
    · rintro ⟨⟨value, first_ok⟩, ordered⟩
      obtain ⟨values, h⟩ := (tail value).mpr ordered
      exact ⟨values, run_cons.mpr ⟨value, first_ok, h⟩⟩

/-! ### Two passes over one table -/

/-- Steps that agree on related values keep doing so along the table. -/
theorem run_matches {R : V → W → Prop} {step' : List W → N → Except ε' W}
    (steps : ∀ done done', List.Forall₂ R done done' → ∀ node ∈ nodes,
      Matches R (step done node) (step' done' node))
    {done' : List W} (start : List.Forall₂ R done done') :
    Matches (List.Forall₂ R) (run step done nodes) (run step' done' nodes) := by
  induction nodes generalizing done done' with
  | nil => exact start
  | cons node rest ih =>
    refine matches_bind (steps done done' start node List.mem_cons_self) ?_
    intro value value' _ _ related
    exact ih (fun d d' both n mem => steps d d' both n (List.mem_cons_of_mem _ mem))
      (List.rel_append start (.cons related .nil))

/-! ### Passes without checks -/

/-- The pass of a step that takes its children for granted. -/
def runTotal (step : List V → N → V) : List V → List N → List V
  | done, [] => done
  | done, node :: rest => runTotal step (done ++ [step done node]) rest

theorem runTotal_length {total : List V → N → V} :
    (runTotal total done nodes).length = done.length + nodes.length := by
  induction nodes generalizing done with
  | nil => rfl
  | cons node rest ih =>
    rw [runTotal, ih, List.length_append, List.length_singleton, List.length_cons]
    omega

/-- Where the children are there, a step that looks for them finds them. -/
theorem run_eq_runTotal {total : List V → N → V}
    (steps : ∀ done node, (∀ child ∈ children node, child < done.length) →
      step done node = .ok (total done node))
    (ordered : OrderedFrom children done.length nodes) :
    run step done nodes = .ok (runTotal total done nodes) := by
  induction nodes generalizing done with
  | nil => rfl
  | cons node rest ih =>
    obtain ⟨first, others⟩ := orderedFrom_cons.mp ordered
    rw [run, steps done node first, ok_bind, runTotal]
    apply ih
    rwa [List.length_append, List.length_singleton]

/-! ### Checking during the pass and after it -/

section Checking

variable {W H σ τ : Type} {key : List V → N → Except ε W} {value : W → V}
  {check : σ → H → W → Except ε σ} {after : τ → H → W → Except ε τ}

/-- One pass: the key of a node, a check of the key, and the value of the key. -/
def runChecking (key : List V → N → Except ε W) (value : W → V) (check : σ → H → W → Except ε σ) :
    σ → List V → List (N × H) → Except ε (List V)
  | _, done, [] => .ok done
  | state, done, (node, extra) :: rest => do
    let found ← key done node
    let next ← check state extra found
    runChecking key value check next (done ++ [value found]) rest

/-- The value of a node, from its key. -/
def keyStep (key : List V → N → Except ε W) (value : W → V) (done : List V) (node : N) :
    Except ε V := do
  let found ← key done node
  .ok (value found)

/-- The pass of the checks alone, with the keys from a table of values. -/
def checkKeys (key : List V → N → Except ε W) (after : τ → H → W → Except ε τ) (values : List V)
    (state : τ) (entries : List (N × H)) : Except ε τ :=
  Result.foldEach entries state fun state entry => do
    let found ← key values entry.1
    after state entry.2 found

/-- A key stays the same when more values are done. -/
def Stable (key : List V → N → Except ε W) : Prop :=
  ∀ done more node found, key done node = .ok found → key (done ++ more) node = .ok found

theorem keyStep_isOk_iff {node : N} :
    (∃ v, keyStep key value done node = .ok v) ↔ ∃ found, key done node = .ok found := by
  constructor
  · rintro ⟨v, h⟩
    obtain ⟨found, found_ok, _⟩ := bind_eq_ok.mp h
    exact ⟨found, found_ok⟩
  · rintro ⟨found, found_ok⟩
    exact ⟨value found, by rw [keyStep, found_ok, ok_bind]⟩

/-- The keys of the entries can be had before any is checked: the only errors left are the
    checks', and the first of them is the same. -/
theorem runChecking_eq {entries : List (N × H)} (stable : Stable key)
    (finds : ∀ node ∈ entries.map Prod.fst, ∀ done, (∃ found, key done node = .ok found) ↔
      ∀ child ∈ children node, child < done.length)
    (view : σ → τ)
    (agree : ∀ state extra found,
      after (view state) extra found = view <$> check state extra found)
    {state : σ} (ordered : OrderedFrom children done.length (entries.map Prod.fst)) :
    runChecking key value check state done entries = (do
      let values ← run (keyStep key value) done (entries.map Prod.fst)
      let _ ← checkKeys key after values (view state) entries
      .ok values) := by
  induction entries generalizing state done with
  | nil => rfl
  | cons entry rest ih =>
    obtain ⟨node, extra⟩ := entry
    obtain ⟨here, others⟩ := orderedFrom_cons.mp ordered
    obtain ⟨finds_here, finds_later⟩ := List.forall_mem_cons.mp finds
    obtain ⟨found, found_ok⟩ := (finds_here done).mpr here
    have later : OrderedFrom children (done ++ [value found]).length (rest.map Prod.fst) := by
      rwa [List.length_append, List.length_singleton]
    have first : keyStep key value done node = .ok (value found) := by
      rw [keyStep, found_ok, ok_bind]
    -- The whole pass ends, so the table of values is there when the checks begin.
    obtain ⟨values, rest_ok⟩ : ∃ values, run (keyStep key value) (done ++ [value found])
        (rest.map Prod.fst) = .ok values := by
      apply (run_isOk_iff fun other mem done => ?_).mpr later
      rw [keyStep_isOk_iff, finds_later other mem]
    have again : key values node = .ok found := by
      obtain ⟨more, rfl, _⟩ := run_extends rest_ok
      rw [List.append_assoc]
      exact stable done _ node found found_ok
    simp only [runChecking, List.map_cons, run, first, found_ok, ok_bind, rest_ok, checkKeys,
      Result.foldEach, again, agree]
    cases checked : check state extra found with
    | error e => rfl
    | ok next =>
      rw [ok_bind, ih finds_later later, rest_ok]
      rfl

end Checking

end NpaCore.ForwardPass
