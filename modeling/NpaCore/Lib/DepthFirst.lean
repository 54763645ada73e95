import Mathlib.Algebra.Ring.Nat
import Mathlib.Logic.Relation
import NpaCore.Lib.Result

/-!
# Depth-first order with an explicit stack

The walk keeps a frame for each node it is inside of, with the number of the edge to
follow next. A node enters the order when its edges are used up, so it comes after
the nodes it points to; an edge to a node the walk is inside of closes a cycle.

## Main results

* `visit` ends on every graph: each step lowers `Walk.cost`.
* `order_spec`: a successful search lists every node once, after the nodes its edges
  lead to.
* `order_isOk_iff`: the search succeeds exactly when no node leads back to itself.
-/

namespace NpaCore.DepthFirst

inductive VisitState where
  | unvisited
  | visiting
  | visited
  deriving DecidableEq, Repr

/-- For each node its edges; `none` is an edge that leaves the graph. -/
abbrev Graph := List (List (Option Nat))

def Graph.edges (graph : Graph) (node : Nat) : List (Option Nat) := (graph[node]?).getD []

structure Frame where
  node : Nat
  nextEdge : Nat
  deriving DecidableEq, Repr

/-- The frames with the innermost first, the state of each node, and the order so far. -/
structure Walk where
  frames : List Frame
  states : List VisitState
  order : List Nat
  deriving DecidableEq, Repr

/-- The edge that closes a cycle: the frames with the innermost first, the number of the
edge in the innermost frame's node, and the node it points to. -/
structure Cycle where
  frames : List Frame
  edge : Nat
  target : Nat
  deriving DecidableEq, Repr

def step (graph : Graph) (walk : Walk) : Except Cycle (Option Walk) :=
  match walk.frames with
  | [] => .ok none
  | frame :: rest =>
    match (graph.edges frame.node)[frame.nextEdge]? with
    | none =>
      .ok (some
        { frames := rest
          states := walk.states.set frame.node .visited
          order := walk.order ++ [frame.node] })
    | some edge =>
      let frames := { frame with nextEdge := frame.nextEdge + 1 } :: rest
      match edge with
      | none => .ok (some { walk with frames })
      | some target =>
        match walk.states[target]? with
        | some .unvisited =>
          .ok (some
            { frames := { node := target, nextEdge := 0 } :: frames
              states := walk.states.set target .visiting
              order := walk.order })
        | some .visiting => .error { frames, edge := frame.nextEdge, target }
        -- A visited node has its place in the order; no edge points past the last node.
        | some .visited | none => .ok (some { walk with frames })

variable {graph : Graph} {walk next : Walk}

/-- What a step can do. -/
theorem step_cases (h : step graph walk = .ok (some next)) :
    ∃ frame rest, walk.frames = frame :: rest ∧
      (((graph.edges frame.node)[frame.nextEdge]? = none ∧
          next = { frames := rest, states := walk.states.set frame.node .visited
                   order := walk.order ++ [frame.node] }) ∨
        (∃ target, (graph.edges frame.node)[frame.nextEdge]? = some (some target) ∧
          walk.states[target]? = some .unvisited ∧
          next = { frames := { node := target, nextEdge := 0 } ::
                     { frame with nextEdge := frame.nextEdge + 1 } :: rest
                   states := walk.states.set target .visiting, order := walk.order }) ∨
        (∃ edge, (graph.edges frame.node)[frame.nextEdge]? = some edge ∧
          (∀ target, edge = some target →
            walk.states[target]? = some .visited ∨ walk.states[target]? = none) ∧
          next = { walk with frames := { frame with nextEdge := frame.nextEdge + 1 } :: rest })) := by
  unfold step at h
  split at h
  · cases h
  · rename_i frame rest hframes
    refine ⟨frame, rest, hframes, ?_⟩
    split at h
    · rename_i hedge
      cases h
      exact .inl ⟨hedge, rfl⟩
    · rename_i edge hedge
      dsimp only at h
      split at h
      · cases h
        exact .inr (.inr ⟨none, hedge, by simp, rfl⟩)
      · rename_i target
        split at h
        · rename_i hstate
          cases h
          exact .inr (.inl ⟨target, hedge, hstate, rfl⟩)
        · cases h
        · rename_i hstate
          cases h
          refine .inr (.inr ⟨some target, hedge, ?_, rfl⟩)
          rintro _ ⟨⟩
          exact .inl hstate
        · rename_i hstate
          cases h
          refine .inr (.inr ⟨some target, hedge, ?_, rfl⟩)
          rintro _ ⟨⟩
          exact .inr hstate

/-! ### The walk ends -/

/-- What the unvisited nodes cost together. -/
def pending (cost : Nat → Nat) : List VisitState → Nat
  | [] => 0
  | state :: rest =>
    (if state = .unvisited then cost 0 else 0) + pending (fun node => cost (node + 1)) rest

theorem pending_set_le (cost : Nat → Nat) (states : List VisitState) (node : Nat)
    {state : VisitState} (hstate : state ≠ .unvisited) :
    pending cost (states.set node state) ≤ pending cost states := by
  induction states generalizing cost node with
  | nil => exact Nat.le_refl _
  | cons first rest ih =>
    cases node with
    | zero =>
      simp only [List.set_cons_zero, pending, if_neg hstate]
      omega
    | succ node =>
      have tail := ih (fun node => cost (node + 1)) node
      simp only [List.set_cons_succ, pending]
      omega

theorem pending_set (cost : Nat → Nat) {states : List VisitState} {node : Nat}
    {state : VisitState} (hnode : states[node]? = some .unvisited) (hstate : state ≠ .unvisited) :
    pending cost (states.set node state) + cost node = pending cost states := by
  induction states generalizing cost node with
  | nil => cases hnode
  | cons first rest ih =>
    cases node with
    | zero =>
      obtain rfl : first = .unvisited := by simpa using hnode
      simp only [List.set_cons_zero, pending, if_neg hstate, if_pos]
      omega
    | succ node =>
      have tail := ih (fun node => cost (node + 1)) (by simpa using hnode)
      simp only [List.set_cons_succ, pending]
      omega

/-- A node costs its edges, its last step, and the push of its frame. -/
def Graph.nodeCost (graph : Graph) (node : Nat) : Nat := (graph.edges node).length + 2

def Frame.cost (graph : Graph) (frame : Frame) : Nat :=
  (graph.edges frame.node).length - frame.nextEdge + 1

def Walk.cost (graph : Graph) (walk : Walk) : Nat :=
  pending graph.nodeCost walk.states + (walk.frames.map (Frame.cost graph)).sum

theorem step_cost (h : step graph walk = .ok (some next)) :
    next.cost graph < walk.cost graph := by
  obtain ⟨frame, rest, hframes, ⟨_, rfl⟩ | ⟨target, hedge, hstate, rfl⟩ | ⟨edge, hedge, _, rfl⟩⟩ :=
    step_cases h
  · have states := pending_set_le graph.nodeCost walk.states frame.node
      (by decide : VisitState.visited ≠ .unvisited)
    simp only [Walk.cost, hframes, List.map_cons, List.sum_cons, Frame.cost]
    omega
  · have states := pending_set graph.nodeCost hstate
      (by decide : VisitState.visiting ≠ .unvisited)
    have bound := (List.getElem?_eq_some_iff.mp hedge).1
    simp only [Walk.cost, hframes, List.map_cons, List.sum_cons, Frame.cost,
      Graph.nodeCost] at states ⊢
    omega
  · have bound := (List.getElem?_eq_some_iff.mp hedge).1
    simp only [Walk.cost, hframes, List.map_cons, List.sum_cons, Frame.cost]
    omega

def visit (graph : Graph) (walk : Walk) : Except Cycle Walk :=
  match _h : step graph walk with
  | .error cycle => .error cycle
  | .ok none => .ok walk
  | .ok (some next) => visit graph next
termination_by walk.cost graph
decreasing_by exact step_cost _h

/-- Start at a node that was not visited yet. -/
def enter (graph : Graph) (walk : Walk) (node : Nat) : Except Cycle Walk :=
  if walk.states[node]? = some .unvisited then
    visit graph
      { frames := [{ node, nextEdge := 0 }]
        states := walk.states.set node .visiting
        order := walk.order }
  else .ok walk

def Graph.start (graph : Graph) : Walk :=
  { frames := [], states := List.replicate graph.length .unvisited, order := [] }

def search (graph : Graph) : Except Cycle Walk :=
  Result.foldEach (List.range graph.length) graph.start (enter graph)

def order (graph : Graph) : Except Cycle (List Nat) :=
  search graph >>= fun walk => .ok walk.order

/-! ### What the order lists -/

/-- Every edge leads to a node of the graph or out of it. -/
def Graph.InRange (graph : Graph) : Prop :=
  ∀ node target, some target ∈ graph.edges node → target < graph.length

/-- Every listed node comes after the nodes its edges lead to. -/
def Settled (graph : Graph) (order : List Nat) : Prop :=
  ∀ before node after, order = before ++ node :: after →
    ∀ target, some target ∈ graph.edges node → target ∈ before

theorem Settled.snoc {order : List Nat} {node : Nat} (settled : Settled graph order)
    (targets : ∀ target, some target ∈ graph.edges node → target ∈ order) :
    Settled graph (order ++ [node]) := by
  intro before other after heq
  rcases List.eq_nil_or_concat after with rfl | ⟨after, last, rfl⟩
  · obtain ⟨rfl, hnode⟩ := List.append_inj' heq rfl
    cases hnode
    exact targets
  · have heq : order ++ [node] = (before ++ other :: after) ++ [last] := by simpa using heq
    exact settled before other after (List.append_inj' heq rfl).1

/-- The followed edges of each frame lead to listed nodes, the last one perhaps to the
node of the frame above. -/
def Followed (graph : Graph) (order : List Nat) : Option Nat → List Frame → Prop
  | _, [] => True
  | child, frame :: rest =>
    (∀ edge target, edge < frame.nextEdge →
      (graph.edges frame.node)[edge]? = some (some target) →
        target ∈ order ∨ some target = child) ∧
    Followed graph order (some frame.node) rest

theorem Followed.mono {order order' : List Nat} {child child' : Option Nat}
    {frames : List Frame} (followed : Followed graph order child frames)
    (keeps : ∀ node ∈ order, node ∈ order')
    (top : ∀ node, some node = child → node ∈ order' ∨ some node = child') :
    Followed graph order' child' frames := by
  induction frames generalizing child child' with
  | nil => trivial
  | cons frame rest ih =>
    refine ⟨fun edge target hlt hedge => ?_, ih followed.2 fun node hnode => .inr hnode⟩
    rcases followed.1 edge target hlt hedge with listed | onTop
    · exact .inl (keeps target listed)
    · exact top target onTop

structure Walk.Inv (graph : Graph) (walk : Walk) : Prop where
  size : walk.states.length = graph.length
  listed : ∀ node, walk.states[node]? = some .visited ↔ node ∈ walk.order
  inside : ∀ node, walk.states[node]? = some .visiting ↔ node ∈ walk.frames.map Frame.node
  frames : (walk.frames.map Frame.node).Nodup
  nodup : walk.order.Nodup
  settled : Settled graph walk.order
  followed : Followed graph walk.order none walk.frames

theorem Graph.start_inv (graph : Graph) : graph.start.Inv graph where
  size := by simp [Graph.start]
  listed node := by
    simp only [Graph.start, List.not_mem_nil, iff_false]
    intro h
    cases (List.mem_replicate.mp (List.mem_of_getElem? h)).2
  inside node := by
    simp only [Graph.start, List.map_nil, List.not_mem_nil, iff_false]
    intro h
    cases (List.mem_replicate.mp (List.mem_of_getElem? h)).2
  frames := List.nodup_nil
  nodup := List.nodup_nil
  settled before node after h := by
    simp [Graph.start] at h
  followed := trivial

/-- The states after one of them was changed, of a node that is in range. -/
theorem getElem?_set_state {states : List VisitState} {node other : Nat} {state new : VisitState}
    (hnode : states[node]? = some state) :
    (states.set node new)[other]? = if other = node then some new else states[other]? := by
  have bound := (List.getElem?_eq_some_iff.mp hnode).1
  rw [List.getElem?_set]
  by_cases same : node = other
  · simp [same, same ▸ bound]
  · simp [same, Ne.symm same]

variable {walk : Walk}

theorem Walk.Inv.finish {frame : Frame} {rest : List Frame}
    (inv : walk.Inv graph) (hframes : walk.frames = frame :: rest)
    (used : (graph.edges frame.node)[frame.nextEdge]? = none) :
    ({ frames := rest, states := walk.states.set frame.node .visited
       order := walk.order ++ [frame.node] } : Walk).Inv graph := by
  have visiting : walk.states[frame.node]? = some .visiting :=
    (inv.inside frame.node).mpr (by simp [hframes])
  have distinct : frame.node ∉ rest.map Frame.node ∧ (rest.map Frame.node).Nodup := by
    simpa [hframes] using inv.frames
  have fresh : frame.node ∉ walk.order := fun mem => by
    simp [(inv.listed frame.node).mpr mem] at visiting
  have followed : Followed graph walk.order none (frame :: rest) := hframes ▸ inv.followed
  constructor
  case size => simpa using inv.size
  case listed =>
    intro node
    rw [getElem?_set_state visiting]
    by_cases same : node = frame.node
    · simp [same]
    · simp [same, inv.listed node]
  case inside =>
    intro node
    rw [getElem?_set_state visiting]
    by_cases same : node = frame.node
    · simpa [same] using distinct.1
    · simpa [same, hframes] using inv.inside node
  case frames => exact distinct.2
  case nodup => exact List.nodup_append.mpr ⟨inv.nodup, by simp, by
    rintro node mem other hother rfl
    exact fresh (List.mem_singleton.mp hother ▸ mem)⟩
  case settled =>
    -- All edges of the node were followed, and no frame is above its own.
    refine inv.settled.snoc fun target htarget => ?_
    obtain ⟨edge, hedge⟩ := List.mem_iff_getElem?.mp htarget
    have bound := (List.getElem?_eq_some_iff.mp hedge).1
    have all := List.getElem?_eq_none_iff.mp used
    rcases followed.1 edge target (by omega) hedge with listed | onTop
    · exact listed
    · cases onTop
  case followed =>
    refine followed.2.mono (fun node mem => by simp [mem]) fun node hnode => .inl ?_
    cases hnode
    simp

theorem Walk.Inv.descend {frame : Frame} {rest : List Frame}
    {target : Nat} (inv : walk.Inv graph) (hframes : walk.frames = frame :: rest)
    (hedge : (graph.edges frame.node)[frame.nextEdge]? = some (some target))
    (hstate : walk.states[target]? = some .unvisited) :
    ({ frames := { node := target, nextEdge := 0 } ::
         { frame with nextEdge := frame.nextEdge + 1 } :: rest
       states := walk.states.set target .visiting, order := walk.order } : Walk).Inv graph := by
  have followed : Followed graph walk.order none (frame :: rest) := hframes ▸ inv.followed
  have fresh : target ∉ walk.frames.map Frame.node := fun mem => by
    simp [(inv.inside target).mpr mem] at hstate
  have unlisted : target ∉ walk.order := fun mem => by
    simp [(inv.listed target).mpr mem] at hstate
  constructor
  case size => simpa using inv.size
  case listed =>
    intro node
    rw [getElem?_set_state hstate]
    by_cases same : node = target
    · simpa [same] using unlisted
    · simpa [same] using inv.listed node
  case inside =>
    intro node
    rw [getElem?_set_state hstate]
    by_cases same : node = target
    · simp [same]
    · simpa [same, hframes] using inv.inside node
  case frames =>
    have distinct := List.nodup_cons.mpr ⟨fresh, inv.frames⟩
    simpa [hframes] using distinct
  case nodup => exact inv.nodup
  case settled => exact inv.settled
  case followed =>
    refine ⟨fun edge _ hlt _ => absurd hlt (Nat.not_lt_zero edge), fun edge other hlt hother => ?_,
      followed.2⟩
    rcases Nat.lt_succ_iff_lt_or_eq.mp hlt with earlier | rfl
    · rcases followed.1 edge other earlier hother with listed | onTop
      · exact .inl listed
      · cases onTop
    · rw [hedge] at hother
      cases hother
      exact .inr rfl

theorem Walk.Inv.pass {frame : Frame} {rest : List Frame}
    {edge : Option Nat} (inv : walk.Inv graph) (hframes : walk.frames = frame :: rest)
    (hedge : (graph.edges frame.node)[frame.nextEdge]? = some edge)
    (old : ∀ target, edge = some target → target ∈ walk.order) :
    ({ walk with frames := { frame with nextEdge := frame.nextEdge + 1 } :: rest } : Walk).Inv
      graph := by
  have followed : Followed graph walk.order none (frame :: rest) := hframes ▸ inv.followed
  constructor
  case size => exact inv.size
  case listed => exact inv.listed
  case inside => simpa [hframes] using inv.inside
  case frames => simpa [hframes] using inv.frames
  case nodup => exact inv.nodup
  case settled => exact inv.settled
  case followed =>
    refine ⟨fun number other hlt hother => ?_, followed.2⟩
    rcases Nat.lt_succ_iff_lt_or_eq.mp hlt with earlier | rfl
    · exact followed.1 number other earlier hother
    · rw [hedge] at hother
      cases hother
      exact .inl (old other rfl)

theorem step_inv (inRange : graph.InRange)
    (inv : walk.Inv graph) (h : step graph walk = .ok (some next)) : next.Inv graph := by
  obtain ⟨frame, rest, hframes, ⟨used, rfl⟩ | ⟨target, hedge, hstate, rfl⟩ | ⟨edge, hedge, old, rfl⟩⟩ :=
    step_cases h
  · exact inv.finish hframes used
  · exact inv.descend hframes hedge hstate
  · refine inv.pass hframes hedge fun target htarget => ?_
    rcases old target htarget with visited | outside
    · exact (inv.listed target).mp visited
    · have mem := inRange frame.node target (htarget ▸ List.mem_of_getElem? hedge)
      have bound := List.getElem?_eq_none_iff.mp outside
      rw [inv.size] at bound
      omega

/-- A node that was met stays so. -/
def Met (walk next : Walk) : Prop :=
  ∀ node : Nat, next.states[node]? = some .unvisited → walk.states[node]? = some .unvisited

theorem met_set {states : List VisitState} {node other : Nat} {state : VisitState}
    (hstate : state ≠ .unvisited) (h : (states.set node state)[other]? = some .unvisited) :
    states[other]? = some .unvisited := by
  rw [List.getElem?_set] at h
  by_cases same : node = other
  · simp [same] at h
    exact absurd h.2 hstate
  · simpa [same] using h

theorem step_met (h : step graph walk = .ok (some next)) :
    Met walk next := by
  obtain ⟨_, _, _, ⟨_, rfl⟩ | ⟨_, _, _, rfl⟩ | ⟨_, _, _, rfl⟩⟩ := step_cases h
  · exact fun _ => met_set (by decide)
  · exact fun _ => met_set (by decide)
  · exact fun _ h => h

theorem visit_spec (inRange : graph.InRange) {walk last : Walk}
    (inv : walk.Inv graph) (h : visit graph walk = .ok last) :
    last.Inv graph ∧ last.frames = [] ∧ Met walk last := by
  induction walk using visit.induct graph with
  | case1 walk cycle hstep =>
    rw [visit, hstep] at h
    cases h
  | case2 walk hstep =>
    rw [visit, hstep] at h
    cases h
    refine ⟨inv, ?_, fun _ h => h⟩
    unfold step at hstep
    split at hstep
    · assumption
    · repeat' split at hstep
      all_goals cases hstep
  | case3 walk next hstep ih =>
    rw [visit, hstep] at h
    obtain ⟨lastInv, done, met⟩ := ih (step_inv inRange inv hstep) h
    exact ⟨lastInv, done, fun node hnode => step_met hstep node (met node hnode)⟩

/-- A walk at rest begins at an unvisited node. -/
theorem Walk.Inv.started {node : Nat} (inv : walk.Inv graph)
    (rest : walk.frames = []) (hstate : walk.states[node]? = some .unvisited) :
    ({ frames := [{ node, nextEdge := 0 }], states := walk.states.set node .visiting
       order := walk.order } : Walk).Inv graph := by
  constructor
  case size => simpa using inv.size
  case listed =>
    intro other
    rw [getElem?_set_state hstate]
    by_cases same : other = node
    · have unlisted : node ∉ walk.order := fun mem => by
        simp [(inv.listed node).mpr mem] at hstate
      simpa [same] using unlisted
    · simpa [same] using inv.listed other
  case inside =>
    intro other
    rw [getElem?_set_state hstate]
    by_cases same : other = node
    · simp [same]
    · simpa [same, rest] using inv.inside other
  case frames => simp
  case nodup => exact inv.nodup
  case settled => exact inv.settled
  case followed => exact ⟨fun edge _ hlt _ => absurd hlt (Nat.not_lt_zero edge), trivial⟩

theorem enter_spec (inRange : graph.InRange) {walk last : Walk} {node : Nat}
    (inv : walk.Inv graph) (rest : walk.frames = []) (h : enter graph walk node = .ok last) :
    last.Inv graph ∧ last.frames = [] ∧ Met walk last ∧ last.states[node]? ≠ some .unvisited := by
  unfold enter at h
  split at h
  · rename_i hstate
    obtain ⟨lastInv, done, met⟩ := visit_spec inRange (inv.started rest hstate) h
    refine ⟨lastInv, done, fun other hother => met_set (by decide) (met other hother), ?_⟩
    intro hother
    have visiting := met node hother
    rw [getElem?_set_state hstate, if_pos rfl] at visiting
    cases visiting
  · rename_i hstate
    cases h
    exact ⟨inv, rest, fun _ h => h, hstate⟩

theorem search_spec (inRange : graph.InRange) {last : Walk} (h : search graph = .ok last) :
    last.Inv graph ∧ ∀ node, node < graph.length → node ∈ last.order := by
  have loop : ∀ nodes (walk : Walk), walk.Inv graph → walk.frames = [] →
      Result.foldEach nodes walk (enter graph) = .ok last →
      last.Inv graph ∧ last.frames = [] ∧ Met walk last ∧
        ∀ node ∈ nodes, last.states[node]? ≠ some .unvisited := by
    intro nodes
    induction nodes with
    | nil =>
      intro walk inv rest h
      cases h
      exact ⟨inv, rest, fun _ h => h, by simp⟩
    | cons node nodes ih =>
      intro walk inv rest h
      simp only [Result.foldEach, Result.bind_eq_ok] at h
      obtain ⟨next, hnext, h⟩ := h
      obtain ⟨nextInv, nextRest, nextMet, here⟩ := enter_spec inRange inv rest hnext
      obtain ⟨lastInv, done, met, others⟩ := ih next nextInv nextRest h
      refine ⟨lastInv, done, fun other hother => nextMet other (met other hother), ?_⟩
      intro other mem
      rcases List.mem_cons.mp mem with rfl | mem
      · exact fun hother => here (met other hother)
      · exact others other mem
  obtain ⟨inv, done, _, all⟩ := loop _ _ graph.start_inv rfl h
  refine ⟨inv, fun node hnode => (inv.listed node).mp ?_⟩
  have bound : node < last.states.length := inv.size ▸ hnode
  have notUnvisited := all node (List.mem_range.mpr hnode)
  have notVisiting : last.states[node]? ≠ some .visiting := fun h => by
    simpa [done] using (inv.inside node).mp h
  rw [List.getElem?_eq_getElem bound] at notUnvisited notVisiting ⊢
  cases hstate : last.states[node] <;> simp_all

theorem order_spec (inRange : graph.InRange) {nodes : List Nat} (h : order graph = .ok nodes) :
    nodes.Nodup ∧ (∀ node, node ∈ nodes ↔ node < graph.length) ∧ Settled graph nodes := by
  obtain ⟨last, hlast, h⟩ := Result.bind_eq_ok.mp h
  cases h
  obtain ⟨inv, complete⟩ := search_spec inRange hlast
  refine ⟨inv.nodup, fun node => ⟨fun mem => ?_, complete node⟩, inv.settled⟩
  have visited := (inv.listed node).mpr mem
  exact inv.size ▸ (List.getElem?_eq_some_iff.mp visited).1

/-! ### Cycles -/

open Relation (TransGen ReflTransGen)

def Graph.Leads (graph : Graph) (node target : Nat) : Prop := some target ∈ graph.edges node

/-- Each frame was entered from the one below it. -/
def Walk.Nested (graph : Graph) (walk : Walk) : Prop :=
  (walk.frames.map Frame.node).IsChain fun inner outer => graph.Leads outer inner

theorem step_nested (nested : walk.Nested graph)
    (h : step graph walk = .ok (some next)) : next.Nested graph := by
  obtain ⟨frame, rest, hframes, ⟨_, rfl⟩ | ⟨target, hedge, _, rfl⟩ | ⟨_, _, _, rfl⟩⟩ :=
    step_cases h
  · simp only [Walk.Nested, hframes, List.map_cons] at nested
    exact nested.of_cons
  · simp only [Walk.Nested, hframes, List.map_cons] at nested ⊢
    exact List.isChain_cons_cons.mpr ⟨List.mem_of_getElem? hedge, nested⟩
  · simpa only [Walk.Nested, hframes, List.map_cons] using nested

/-- A failing step follows an edge to a node that the walk is inside of. -/
theorem step_error {cycle : Cycle} (h : step graph walk = .error cycle) :
    ∃ frame rest target, walk.frames = frame :: rest ∧ graph.Leads frame.node target ∧
      walk.states[target]? = some .visiting := by
  unfold step at h
  split at h
  · cases h
  · rename_i frame rest hframes
    split at h
    · cases h
    · rename_i edge hedge
      dsimp only at h
      split at h
      · cases h
      · rename_i target
        split at h
        · cases h
        · rename_i hstate
          exact ⟨frame, rest, target, hframes, List.mem_of_getElem? hedge, hstate⟩
        · cases h
        · cases h

/-- Every node the walk is inside of leads to the innermost one. -/
theorem chain_leads {inner : Nat} {nodes : List Nat}
    (chain : (inner :: nodes).IsChain fun inner outer => graph.Leads outer inner) :
    ∀ node ∈ inner :: nodes, ReflTransGen graph.Leads node inner := by
  induction nodes generalizing inner with
  | nil =>
    intro node mem
    rw [List.mem_singleton.mp mem]
  | cons outer nodes ih =>
    rw [List.isChain_cons_cons] at chain
    intro node mem
    rcases List.mem_cons.mp mem with rfl | mem
    · exact .refl
    · exact (ih chain.2 node mem).tail chain.1

theorem visit_cyclic (inRange : graph.InRange) {cycle : Cycle}
    (inv : walk.Inv graph) (nested : walk.Nested graph) (h : visit graph walk = .error cycle) :
    ∃ node, TransGen graph.Leads node node := by
  induction walk using visit.induct graph with
  | case1 walk cycle hstep =>
    obtain ⟨frame, rest, target, hframes, leads, visiting⟩ := step_error hstep
    have inside := (inv.inside target).mp visiting
    rw [Walk.Nested, hframes, List.map_cons] at nested
    rw [hframes, List.map_cons] at inside
    exact ⟨target, TransGen.tail' (chain_leads nested target inside) leads⟩
  | case2 walk hstep =>
    rw [visit, hstep] at h
    cases h
  | case3 walk next hstep ih =>
    rw [visit, hstep] at h
    exact ih (step_inv inRange inv hstep) (step_nested nested hstep) h

/-- A node comes after the nodes it leads to. -/
theorem Settled.idxOf_lt {order : List Nat} (settled : Settled graph order)
    (nodup : order.Nodup) {node target : Nat} (mem : node ∈ order)
    (leads : graph.Leads node target) : order.idxOf target < order.idxOf node := by
  obtain ⟨before, after, rfl⟩ := List.append_of_mem mem
  have earlier := settled before node after rfl target leads
  have fresh : node ∉ before := fun twice =>
    (List.nodup_append.mp nodup).2.2 node twice node List.mem_cons_self rfl
  rw [List.idxOf_append_of_mem earlier, List.idxOf_append_of_notMem fresh, List.idxOf_cons_self]
  exact List.idxOf_lt_length_of_mem earlier

theorem Graph.Leads.lt {node target : Nat} (leads : graph.Leads node target) :
    node < graph.length := by
  by_contra outside
  rw [Graph.Leads, Graph.edges, List.getElem?_eq_none (Nat.le_of_not_lt outside)] at leads
  cases leads

theorem enter_cyclic (inRange : graph.InRange) {cycle : Cycle}
    {node : Nat} (inv : walk.Inv graph) (rest : walk.frames = [])
    (h : enter graph walk node = .error cycle) : ∃ node, TransGen graph.Leads node node := by
  unfold enter at h
  split at h
  next hstate =>
    exact visit_cyclic inRange (inv.started rest hstate) (by simp [Walk.Nested]) h
  next => cases h

theorem order_isOk_iff (inRange : graph.InRange) :
    (∃ nodes, order graph = .ok nodes) ↔ ∀ node, ¬TransGen graph.Leads node node := by
  constructor
  · rintro ⟨nodes, h⟩ node cyclic
    obtain ⟨nodup, complete, settled⟩ := order_spec inRange h
    have descends : ∀ target, TransGen graph.Leads node target →
        nodes.idxOf target < nodes.idxOf node := by
      intro target path
      induction path with
      | single leads => exact settled.idxOf_lt nodup ((complete _).mpr leads.lt) leads
      | tail _ leads ih =>
        exact Nat.lt_trans (settled.idxOf_lt nodup ((complete _).mpr leads.lt) leads) ih
    exact Nat.lt_irrefl _ (descends node cyclic)
  · intro acyclic
    have loop : ∀ nodes (walk : Walk), walk.Inv graph → walk.frames = [] →
        ∃ last, Result.foldEach nodes walk (enter graph) = .ok last := by
      intro nodes
      induction nodes with
      | nil => exact fun walk _ _ => ⟨walk, rfl⟩
      | cons node nodes ih =>
        intro walk inv rest
        cases hnext : enter graph walk node with
        | error cycle =>
          obtain ⟨cyclic, path⟩ := enter_cyclic inRange inv rest hnext
          exact absurd path (acyclic cyclic)
        | ok next =>
          obtain ⟨nextInv, nextRest, _⟩ := enter_spec inRange inv rest hnext
          obtain ⟨last, hlast⟩ := ih next nextInv nextRest
          refine ⟨last, ?_⟩
          rw [Result.foldEach, hnext]
          exact hlast
    obtain ⟨last, hlast⟩ := loop (List.range graph.length) graph.start graph.start_inv rfl
    refine ⟨last.order, ?_⟩
    rw [order, search, hlast]
    rfl

end NpaCore.DepthFirst
