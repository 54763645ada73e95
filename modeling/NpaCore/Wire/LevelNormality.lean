import Mathlib.Algebra.Order.BigOperators.Group.List
import Mathlib.Data.List.Nodup
import NpaCore.Syntax.LevelLoops
import NpaCore.Syntax.Renaming
import NpaCore.Wire.Structural

/-!
# Normal forms in the level table

`level_table_is_normalized` of `npa-cert/src/verify.rs` looks at the nodes of the table one
by one and compares levels without unfolding them. The callers validate the references of
the table first; without that a comparison need not end, so the evidence is an argument.

## Main results

* `compareLevels_eq`: the comparison of two nodes is the kernel's, of their levels.
* `levelTableIsNormalized_eq`: on a table of distinct levels the check accepts exactly when
  the kernel's normal form of each level is the level itself.
-/

namespace NpaCore.Wire

open NpaCore.Result NpaCore.ForwardPass
open NpaCore.Level (levelCmpStackSafe normalizeLevel levelAsNat levelAsNatFrom OrderedPair)

/-- `Name::as_dotted`. -/
def Name.asDotted (name : Name) : String := ".".intercalate name.components

/-! ### References -/

/-- What `validate_level_references` has seen. -/
structure ValidatedLevelReferences (cert : ModuleCert) : Prop where
  ordered : Ordered LevelNode.children cert.levelTable
  names : ∀ name, .param name ∈ cert.levelTable → name.toNat < cert.nameTable.length

/-- The condition on the node at an index. -/
def levelReferencesOk (cert : ModuleCert) (index : Nat) : LevelNode → Bool
  | .zero => true
  | .succ inner => inner.toNat < index
  | .max lhs rhs | .imax lhs rhs => lhs.toNat < index && rhs.toNat < index
  | .param name => name.toNat < cert.nameTable.length

/-- The loop of `validate_level_references`. -/
def checkLevelReferences (cert : ModuleCert) : CertResult Unit :=
  Result.forEach cert.levelTable.zipIdx fun entry =>
    Result.ensure (levelReferencesOk cert entry.2 entry.1) (.nonCanonicalEncoding "LevelTable")

variable {cert : ModuleCert} {node : LevelNode}

theorem levelReferencesOk_iff {index : Nat} :
    levelReferencesOk cert index node = true ↔
      (∀ child ∈ node.children, child < index) ∧
        ∀ name, node = .param name → name.toNat < cert.nameTable.length := by
  cases node <;> simp [levelReferencesOk, LevelNode.children, LevelNode.levels]

theorem checkLevelReferences_eq_ok_iff {u : Unit} :
    checkLevelReferences cert = .ok u ↔ ValidatedLevelReferences cert := by
  simp only [checkLevelReferences, forEach_eq_ok, ensure_eq_ok, Prod.forall,
    List.mem_zipIdx_iff_getElem?, levelReferencesOk_iff]
  constructor
  · intro checked
    refine ⟨fun index node at_index => (checked node index at_index).1, fun name mem => ?_⟩
    obtain ⟨index, at_index⟩ := List.mem_iff_getElem?.mp mem
    exact (checked _ index at_index).2 name rfl
  · rintro ⟨ordered, names⟩ node index at_index
    refine ⟨ordered index node at_index, ?_⟩
    rintro name rfl
    exact names name (List.mem_of_getElem? at_index)

def validateLevelReferences (cert : ModuleCert) :
    CertResult (PLift (ValidatedLevelReferences cert)) :=
  match checked : checkLevelReferences cert with
  | .ok _ => .ok ⟨checkLevelReferences_eq_ok_iff.mp checked⟩
  | .error e => .error e

/-! ### Comparing levels of the table -/

/-- `tag` of `level_table_is_normalized`. -/
def LevelNode.tag : LevelNode → Nat
  | .zero => 0
  | .succ _ => 1
  | .max _ _ => 2
  | .imax _ _ => 3
  | .param _ => 4

/-- One turn of `compare_levels`: the answer, or the pairs to compare instead. -/
def comparePair (cert : ModuleCert) (lhs rhs : Id) :
    CertResult (Ordering ⊕ List (Id × Id)) :=
  if lhs = rhs then .ok (.inr [])
  else do
    let lhsNode ← Result.okOr cert.levelTable[lhs.toNat]? .decodeError
    let rhsNode ← Result.okOr cert.levelTable[rhs.toNat]? .decodeError
    if compare lhsNode.tag rhsNode.tag ≠ .eq then
      .ok (.inl (compare lhsNode.tag rhsNode.tag))
    else
      match lhsNode, rhsNode with
      | .zero, .zero => .ok (.inr [])
      | .succ lhs, .succ rhs => .ok (.inr [(lhs, rhs)])
      | .max lhsL lhsR, .max rhsL rhsR | .imax lhsL lhsR, .imax rhsL rhsR =>
        .ok (.inr [(lhsL, rhsL), (lhsR, rhsR)])
      | .param lhs, .param rhs => do
        let lhs ← Result.okOr cert.nameTable[lhs.toNat]? .decodeError
        let rhs ← Result.okOr cert.nameTable[rhs.toNat]? .decodeError
        if compare lhs.asDotted rhs.asDotted ≠ .eq then
          .ok (.inl (compare lhs.asDotted rhs.asDotted))
        else .ok (.inr [])
      | _, _ => .error .decodeError

/-- A bound on the turns that a pair takes. -/
def pairWeight (pair : Id × Id) : Nat := 3 ^ pair.1.toNat

def pendingWeight (pending : List (Id × Id)) : Nat := (pending.map pairWeight).sum

/-- The pairs that a turn leaves are pairs of children. -/
theorem comparePair_next {lhs rhs : Id} {next : List (Id × Id)}
    (h : comparePair cert lhs rhs = .ok (.inr next)) :
    next = [] ∨ ∃ node, cert.levelTable[lhs.toNat]? = some node ∧
      next.map (fun pair => pair.1.toNat) = node.children := by
  rw [comparePair] at h
  split at h
  next =>
    cases h
    exact .inl rfl
  next =>
    obtain ⟨lhsNode, at_lhs, h⟩ := bind_eq_ok.mp h
    obtain ⟨rhsNode, _, h⟩ := bind_eq_ok.mp h
    split at h
    next => cases h
    next =>
      split at h
      next =>
        cases h
        exact .inl rfl
      next =>
        cases h
        exact .inr ⟨_, okOr_eq_ok.mp at_lhs, rfl⟩
      next =>
        cases h
        exact .inr ⟨_, okOr_eq_ok.mp at_lhs, rfl⟩
      next =>
        cases h
        exact .inr ⟨_, okOr_eq_ok.mp at_lhs, rfl⟩
      next =>
        obtain ⟨_, _, h⟩ := bind_eq_ok.mp h
        obtain ⟨_, _, h⟩ := bind_eq_ok.mp h
        split at h
        next => cases h
        next =>
          cases h
          exact .inl rfl
      next => cases h

theorem pendingWeight_append (xs ys : List (Id × Id)) :
    pendingWeight (xs ++ ys) = pendingWeight xs + pendingWeight ys := by
  rw [pendingWeight, List.map_append, List.sum_append, ← pendingWeight, ← pendingWeight]

theorem LevelNode.children_length (node : LevelNode) : node.children.length ≤ 2 := by
  cases node <;> simp [LevelNode.children, LevelNode.levels]

/-- At most two pairs, of smaller nodes. -/
theorem pendingWeight_next_lt (references : ValidatedLevelReferences cert)
    {lhs rhs : Id} {next : List (Id × Id)} (h : comparePair cert lhs rhs = .ok (.inr next)) :
    pendingWeight next < pairWeight (lhs, rhs) := by
  rcases comparePair_next h with rfl | ⟨node, at_lhs, children⟩
  · exact Nat.pow_pos (by decide)
  · have smaller : ∀ pair ∈ next, pair.1.toNat < lhs.toNat := fun pair mem =>
      references.ordered _ node at_lhs _ (children ▸ List.mem_map_of_mem mem)
    have few : next.length ≤ 2 := by
      have lengths := congrArg List.length children
      rw [List.length_map] at lengths
      exact lengths ▸ node.children_length
    have below : ∀ {pair : Id × Id}, pair ∈ next → 3 * pairWeight pair ≤ pairWeight (lhs, rhs) := by
      intro pair mem
      have power : 3 * pairWeight pair = 3 ^ (pair.1.toNat + 1) := by
        rw [pairWeight, Nat.pow_succ, Nat.mul_comm]
      rw [power]
      exact Nat.pow_le_pow_right (by decide) (smaller pair mem)
    have positive : 0 < pairWeight (lhs, rhs) := Nat.pow_pos (by decide)
    match next with
    | [] => exact positive
    | [first] =>
      have one := below List.mem_cons_self
      simp only [pendingWeight, List.map_cons, List.map_nil, List.sum_cons, List.sum_nil]
      omega
    | [first, second] =>
      have one : 3 * pairWeight first ≤ _ := below List.mem_cons_self
      have two : 3 * pairWeight second ≤ _ := below (List.mem_cons_of_mem _ List.mem_cons_self)
      simp only [pendingWeight, List.map_cons, List.map_nil, List.sum_cons, List.sum_nil]
      omega
    | _ :: _ :: _ :: _ => simp at few

/-- The loop of `compare_levels`. -/
def comparePending {cert : ModuleCert} (references : ValidatedLevelReferences cert) :
    List (Id × Id) → CertResult Ordering
  | [] => .ok .eq
  | (lhs, rhs) :: pending =>
    match turn : comparePair cert lhs rhs with
    | .error e => .error e
    | .ok (.inl order) => .ok order
    | .ok (.inr next) => comparePending references (next ++ pending)
  termination_by pending => pendingWeight pending
  decreasing_by
    have lighter := pendingWeight_next_lt references turn
    rw [pendingWeight_append]
    simp only [pendingWeight, List.map_cons, List.sum_cons] at lighter ⊢
    omega

def compareLevels {cert : ModuleCert} (references : ValidatedLevelReferences cert)
    (lhs rhs : Id) : CertResult Ordering :=
  comparePending references [(lhs, rhs)]

/-! ### The check -/

/-- The next entry of `naturals`: the value of a numeral, as far as it fits a `u64`. -/
def levelNatural (naturals : List (Option Nat)) : LevelNode → Option Nat
  | .zero => some 0
  | .succ inner => (naturals[inner.toNat]?).join.bind fun value =>
    if value + 1 < 2 ^ 64 then some (value + 1) else none
  | .param _ | .max _ _ | .imax _ _ => none

def isZeroNode (cert : ModuleCert) (level : Id) : Bool :=
  cert.levelTable[level.toNat]? = some .zero

def isSuccNode (cert : ModuleCert) (level : Id) : Bool :=
  match cert.levelTable[level.toNat]? with
  | some (.succ _) => true
  | _ => false

def isNatural (naturals : List (Option Nat)) (level : Id) : Bool :=
  (naturals[level.toNat]?).join.isSome

/-- `normalized` of the loop. -/
def nodeIsNormalized {cert : ModuleCert} (references : ValidatedLevelReferences cert)
    (naturals : List (Option Nat)) : LevelNode → CertResult Bool
  | .zero | .param _ | .succ _ => .ok true
  | .max lhs rhs =>
    if lhs ≠ rhs ∧ !isZeroNode cert lhs ∧ !isZeroNode cert rhs ∧
        !(isNatural naturals lhs && isNatural naturals rhs) then do
      let order ← compareLevels references lhs rhs
      .ok (order ≠ .gt)
    else .ok false
  | .imax _ rhs => .ok (!(isZeroNode cert rhs || isSuccNode cert rhs))

/-- The check on a successor after its number was computed. -/
def checkSucc (index : Nat) : LevelNode → CertResult Unit
  | .succ inner => Result.ensure (inner.toNat < index) .decodeError
  | _ => .ok ()

/-- The loop over the nodes, with one entry of `naturals` for each node before. -/
def normalizedFrom {cert : ModuleCert} (references : ValidatedLevelReferences cert)
    (naturals : List (Option Nat)) : List LevelNode → CertResult Bool
  | [] => .ok true
  | node :: rest => do
    let normalized ← nodeIsNormalized references naturals node
    if !normalized then .ok false
    else do
      checkSucc naturals.length node
      normalizedFrom references (naturals ++ [levelNatural naturals node]) rest

def levelTableIsNormalized (cert : ModuleCert) (references : ValidatedLevelReferences cert) :
    CertResult Bool :=
  normalizedFrom references [] cert.levelTable

/-! ### The levels of the kernel -/

/-- The parameter of an id. -/
def dottedName (cert : ModuleCert) (name : Id) : String :=
  (cert.nameTable[name.toNat]?).elim "" Name.asDotted

/-- The kernel's levels of the table, for the trees of its nodes. -/
def kernelLevels (cert : ModuleCert) (trees : List TableLevel) : List Kernel.Level :=
  trees.map (Level.mapNames (dottedName cert))

/-- The level of a node, by the levels of its children. -/
def NodeLevel (cert : ModuleCert) (levels : List Kernel.Level) (level : Kernel.Level) :
    LevelNode → Prop
  | .zero => level = .zero
  | .succ inner => ∃ l, levels[inner.toNat]? = some l ∧ level = .succ l
  | .max lhs rhs => ∃ l r, levels[lhs.toNat]? = some l ∧ levels[rhs.toNat]? = some r ∧
    level = .max l r
  | .imax lhs rhs => ∃ l r, levels[lhs.toNat]? = some l ∧ levels[rhs.toNat]? = some r ∧
    level = .imax l r
  | .param name => level = .param (dottedName cert name)

/-- The levels stand where the nodes say. -/
structure KernelTable (cert : ModuleCert) (levels : List Kernel.Level) : Prop where
  length : levels.length = cert.levelTable.length
  node : ∀ (i : Nat) node, cert.levelTable[i]? = some node →
    ∃ level, levels[i]? = some level ∧ NodeLevel cert levels level node

theorem getElem?_of_take {α : Type} {values : List α} {count i : Nat} {value : α}
    (h : (values.take count)[i]? = some value) : values[i]? = some value := by
  rw [List.getElem?_take] at h
  split at h
  · exact h
  · cases h

theorem kernelTable_of_unfolds {trees : List TableLevel}
    (unfolds : unfoldLevels cert.levelTable = .ok trees) :
    KernelTable cert (kernelLevels cert trees) := by
  refine ⟨by rw [kernelLevels, List.length_map, unfoldLevels_length unfolds], ?_⟩
  intro i node at_i
  obtain ⟨tree, at_tree, step⟩ := run_entry unfolds at_i
  rw [List.length_nil, Nat.zero_add] at at_tree step
  have child : ∀ {id : Id} {t : TableLevel}, checkedChild (trees.take i) id = .ok t →
      (kernelLevels cert trees)[id.toNat]? = some (t.mapNames (dottedName cert)) := by
    intro id t found
    have here := getElem?_of_take (checkedChild_eq_ok.mp found)
    rw [kernelLevels, List.getElem?_map, here, Option.map_some]
  refine ⟨tree.mapNames (dottedName cert), ?_, ?_⟩
  · rw [kernelLevels, List.getElem?_map, at_tree, Option.map_some]
  · cases node with
    | zero =>
      cases step
      rfl
    | param name =>
      cases step
      rfl
    | succ inner =>
      obtain ⟨t, found, step⟩ := bind_eq_ok.mp step
      cases step
      exact ⟨_, child found, rfl⟩
    | max lhs rhs | imax lhs rhs =>
      obtain ⟨l, left, step⟩ := bind_eq_ok.mp step
      obtain ⟨r, right, step⟩ := bind_eq_ok.mp step
      cases step
      exact ⟨_, _, child left, child right, rfl⟩

variable {level : Kernel.Level}

theorem KernelTable.inside {levels : List Kernel.Level} (table : KernelTable cert levels) {id : Id}
    (found : levels[id.toNat]? = some level) : id.toNat < cert.levelTable.length := by
  rw [← table.length]
  exact (List.getElem?_eq_some_iff.mp found).1

theorem ValidatedLevelReferences.dotted
    (references : ValidatedLevelReferences cert) {i : Nat} {name : Id}
    (at_i : cert.levelTable[i]? = some (.param name)) :
    ∃ entry, cert.nameTable[name.toNat]? = some entry ∧ dottedName cert name = entry.asDotted := by
  have here := List.getElem?_eq_getElem (references.names name (List.mem_of_getElem? at_i))
  exact ⟨_, here, by rw [dottedName, here, Option.elim_some]⟩

section Table

variable {cert : ModuleCert} {levels : List Kernel.Level}

/-- The kernel's comparison of the levels of a pair of nodes. -/
def pairOrder (levels : List Kernel.Level) (pair : Id × Id) : Ordering :=
  match levels[pair.1.toNat]?, levels[pair.2.toNat]? with
  | some lhs, some rhs => levelCmpStackSafe lhs rhs
  | _, _ => .eq

/-- The first difference among the pairs. -/
def pendingOrder (levels : List Kernel.Level) (pending : List (Id × Id)) : Ordering :=
  pending.foldr (fun pair order => (pairOrder levels pair).then order) .eq

theorem pendingOrder_append (xs ys : List (Id × Id)) :
    pendingOrder levels (xs ++ ys) = (pendingOrder levels xs).then (pendingOrder levels ys) := by
  induction xs with
  | nil => rfl
  | cons pair xs ih =>
    simp only [pendingOrder, List.cons_append, List.foldr_cons] at ih ⊢
    rw [ih, Ordering.then_assoc]

/-- Both nodes are in the table. -/
def PairInside (cert : ModuleCert) (pair : Id × Id) : Prop :=
  pair.1.toNat < cert.levelTable.length ∧ pair.2.toNat < cert.levelTable.length

theorem tag_eq_rank (shape : NodeLevel cert levels level node) : level.rank = node.tag := by
  cases node with
  | zero | param _ =>
    rw [shape]
    rfl
  | succ _ =>
    obtain ⟨_, _, rfl⟩ := shape
    rfl
  | max _ _ | imax _ _ =>
    obtain ⟨_, _, _, _, rfl⟩ := shape
    rfl

theorem cmp_of_rank_ne {lhs rhs : Kernel.Level} (differ : compare lhs.rank rhs.rank ≠ .eq) :
    levelCmpStackSafe lhs rhs = compare lhs.rank rhs.rank := by
  cases lhs <;> cases rhs <;> first | rfl | exact absurd rfl differ

/-- What a turn finds: the order of the pair, or pairs with the same order. -/
theorem comparePair_spec (references : ValidatedLevelReferences cert)
    (table : KernelTable cert levels) {lhs rhs : Id} (inside : PairInside cert (lhs, rhs)) :
    (∃ order, comparePair cert lhs rhs = .ok (.inl order) ∧ order ≠ .eq ∧
      pairOrder levels (lhs, rhs) = order) ∨
    ∃ next, comparePair cert lhs rhs = .ok (.inr next) ∧ (∀ pair ∈ next, PairInside cert pair) ∧
      pairOrder levels (lhs, rhs) = pendingOrder levels next := by
  obtain ⟨lhsNode, at_lhs⟩ : ∃ node, cert.levelTable[lhs.toNat]? = some node :=
    ⟨_, List.getElem?_eq_getElem inside.1⟩
  obtain ⟨rhsNode, at_rhs⟩ : ∃ node, cert.levelTable[rhs.toNat]? = some node :=
    ⟨_, List.getElem?_eq_getElem inside.2⟩
  obtain ⟨left, at_left, leftShape⟩ := table.node _ _ at_lhs
  obtain ⟨right, at_right, rightShape⟩ := table.node _ _ at_rhs
  have order : pairOrder levels (lhs, rhs) = levelCmpStackSafe left right := by
    simp only [pairOrder, at_left, at_right]
  rw [order, comparePair]
  by_cases same : lhs = rhs
  · subst same
    rw [at_left] at at_right
    cases at_right
    exact .inr ⟨[], by rw [if_pos rfl], nofun, Level.levelCmpStackSafe_refl _⟩
  · rw [if_neg same, at_lhs, at_rhs]
    simp only [Result.okOr, ok_bind]
    by_cases differ : compare lhsNode.tag rhsNode.tag = .eq
    · -- of the same tag: the parts are put in line, in the order in which the levels compare them
      rw [if_neg (not_not.mpr differ)]
      have tags : lhsNode.tag = rhsNode.tag := Nat.compare_eq_eq.mp differ
      cases lhsNode with
      | zero =>
        cases rhsNode with
        | zero =>
          rw [leftShape, rightShape]
          exact .inr ⟨[], rfl, nofun, rfl⟩
        | _ => simp [LevelNode.tag] at tags
      | succ inner =>
        cases rhsNode with
        | succ inner' =>
          obtain ⟨l, at_l, rfl⟩ := leftShape
          obtain ⟨r, at_r, rfl⟩ := rightShape
          refine .inr ⟨[(inner, inner')], rfl, ?_, ?_⟩
          · exact List.forall_mem_singleton.mpr ⟨table.inside at_l, table.inside at_r⟩
          · simp only [pendingOrder, List.foldr_cons, List.foldr_nil, pairOrder, at_l, at_r]
            exact Ordering.then_eq.symm
        | _ => simp [LevelNode.tag] at tags
      | max lhsL lhsR =>
        cases rhsNode with
        | max rhsL rhsR =>
          obtain ⟨ll, lr, at_ll, at_lr, rfl⟩ := leftShape
          obtain ⟨rl, rr, at_rl, at_rr, rfl⟩ := rightShape
          refine .inr ⟨[(lhsL, rhsL), (lhsR, rhsR)], rfl, ?_, ?_⟩
          · exact List.forall_mem_cons.mpr ⟨⟨table.inside at_ll, table.inside at_rl⟩,
              List.forall_mem_singleton.mpr ⟨table.inside at_lr, table.inside at_rr⟩⟩
          · simp only [pendingOrder, List.foldr_cons, List.foldr_nil, pairOrder, at_ll, at_rl,
              at_lr, at_rr, Ordering.then_eq, levelCmpStackSafe]
        | _ => simp [LevelNode.tag] at tags
      | imax lhsL lhsR =>
        cases rhsNode with
        | imax rhsL rhsR =>
          obtain ⟨ll, lr, at_ll, at_lr, rfl⟩ := leftShape
          obtain ⟨rl, rr, at_rl, at_rr, rfl⟩ := rightShape
          refine .inr ⟨[(lhsL, rhsL), (lhsR, rhsR)], rfl, ?_, ?_⟩
          · exact List.forall_mem_cons.mpr ⟨⟨table.inside at_ll, table.inside at_rl⟩,
              List.forall_mem_singleton.mpr ⟨table.inside at_lr, table.inside at_rr⟩⟩
          · simp only [pendingOrder, List.foldr_cons, List.foldr_nil, pairOrder, at_ll, at_rl,
              at_lr, at_rr, Ordering.then_eq, levelCmpStackSafe]
        | _ => simp [LevelNode.tag] at tags
      | param name =>
        cases rhsNode with
        | param name' =>
          obtain ⟨lname, at_lname, lname_eq⟩ := references.dotted at_lhs
          obtain ⟨rname, at_rname, rname_eq⟩ := references.dotted at_rhs
          rw [leftShape, rightShape, levelCmpStackSafe, lname_eq, rname_eq]
          simp only [at_lname, at_rname, ok_bind]
          by_cases other : compare lname.asDotted rname.asDotted = .eq
          · rw [if_neg (not_not.mpr other)]
            exact .inr ⟨[], rfl, nofun, other⟩
          · rw [if_pos other]
            exact .inl ⟨_, rfl, other, rfl⟩
        | _ => simp [LevelNode.tag] at tags
    · -- the tags are in the order of the kernel's ranks
      rw [if_pos differ]
      refine .inl ⟨_, rfl, differ, ?_⟩
      rw [← tag_eq_rank leftShape, ← tag_eq_rank rightShape] at differ ⊢
      exact cmp_of_rank_ne differ

/-- The comparison ends, with the first difference of the levels. The induction is along the
    turns of the loop. -/
theorem comparePending_eq (references : ValidatedLevelReferences cert)
    (table : KernelTable cert levels) {pending : List (Id × Id)}
    (inside : ∀ pair ∈ pending, PairInside cert pair) :
    comparePending references pending = .ok (pendingOrder levels pending) := by
  induction pending using comparePending.induct references with
  | case1 =>
    rw [comparePending]
    rfl
  | case2 lhs rhs pending e turn =>
    obtain ⟨first, _⟩ := List.forall_mem_cons.mp inside
    rcases comparePair_spec references table first with ⟨_, here, _⟩ | ⟨_, here, _⟩ <;>
    · rw [turn] at here
      cases here
  | case3 lhs rhs pending order turn =>
    obtain ⟨first, _⟩ := List.forall_mem_cons.mp inside
    rcases comparePair_spec references table first with ⟨order', here, differ, found⟩ | ⟨_, here, _⟩
    · rw [turn] at here
      cases here
      rw [comparePending]
      split
      next h => rw [turn] at h; cases h
      next h =>
        rw [turn] at h
        cases h
        rw [pendingOrder, List.foldr_cons, found, Level.then_of_ne differ]
      next h => rw [turn] at h; cases h
    · rw [turn] at here
      cases here
  | case4 lhs rhs pending next turn ih =>
    obtain ⟨first, others⟩ := List.forall_mem_cons.mp inside
    rcases comparePair_spec references table first with ⟨_, here, _⟩ | ⟨next', here, more, found⟩
    · rw [turn] at here
      cases here
    · rw [turn] at here
      cases here
      rw [comparePending]
      split
      next h => rw [turn] at h; cases h
      next h => rw [turn] at h; cases h
      next h =>
        rw [turn] at h
        cases h
        rw [ih (List.forall_mem_append.mpr ⟨more, others⟩), pendingOrder_append, ← found]
        rfl

theorem compareLevels_eq (references : ValidatedLevelReferences cert)
    (table : KernelTable cert levels) {lhs rhs : Id} {left right : Kernel.Level}
    (at_lhs : levels[lhs.toNat]? = some left) (at_rhs : levels[rhs.toNat]? = some right) :
    compareLevels references lhs rhs = .ok (levelCmpStackSafe left right) := by
  rw [compareLevels, comparePending_eq references table
    (List.forall_mem_singleton.mpr ⟨table.inside at_lhs, table.inside at_rhs⟩)]
  simp only [pendingOrder, List.foldr_cons, List.foldr_nil, pairOrder, at_lhs, at_rhs,
    Ordering.then_eq]

/-! ### Numerals of the table -/

theorem levelAsNatFrom_eq (value : Nat) (small : value < 2 ^ 32) (level : Kernel.Level) :
    levelAsNatFrom value level =
      (levelAsNat level).bind fun n => if value + n < 2 ^ 32 then some (value + n) else none := by
  induction level generalizing value with
  | zero => simpa [levelAsNat, levelAsNatFrom] using small
  | succ inner ih =>
    have unfolded : levelAsNat (.succ inner) = levelAsNatFrom 1 inner := by
      rw [levelAsNat, levelAsNatFrom, if_pos (by decide)]
    rw [unfolded, ih 1 (by decide), levelAsNatFrom]
    by_cases fits : value + 1 < 0x100000000
    · rw [if_pos fits, ih (value + 1) (by simpa using fits)]
      cases levelAsNat inner with
      | none => rfl
      | some n =>
        rw [Option.bind_some, Option.bind_some]
        by_cases whole : value + 1 + n < 2 ^ 32
        · have part : 1 + n < 2 ^ 32 := by omega
          have total : value + (1 + n) < 2 ^ 32 := by omega
          rw [if_pos whole, if_pos part, Option.bind_some, if_pos total, Nat.add_assoc]
        · have total : ¬ value + (1 + n) < 2 ^ 32 := by omega
          rw [if_neg whole]
          split
          · rw [Option.bind_some, if_neg total]
          · rfl
    · rw [if_neg fits]
      cases levelAsNat inner with
      | none => rfl
      | some n =>
        have total : ¬ value + (1 + n) < 2 ^ 32 := by omega
        rw [Option.bind_some]
        split
        · rw [Option.bind_some, if_neg total]
        · rfl
  | max _ _ | imax _ _ | param _ => rfl

theorem levelAsNat_succ (level : Kernel.Level) :
    levelAsNat (.succ level) =
      (levelAsNat level).bind fun n => if n + 1 < 2 ^ 32 then some (n + 1) else none := by
  rw [levelAsNat, levelAsNatFrom, if_pos (by decide), levelAsNatFrom_eq _ (by decide)]
  simp only [Nat.zero_add, Nat.add_comm]

/-- A numeral has a node for each number below. -/
theorem natural_le (references : ValidatedLevelReferences cert) (table : KernelTable cert levels)
    (i : Nat) (at_i : levels[i]? = some level) {n : Nat}
    (natural : levelAsNat level = some n) : n ≤ i := by
  induction i using Nat.strongRecOn generalizing level n with
  | ind i ih =>
    have inside := (List.getElem?_eq_some_iff.mp at_i).1
    rw [table.length] at inside
    obtain ⟨node, at_node⟩ : ∃ node, cert.levelTable[i]? = some node :=
      ⟨_, List.getElem?_eq_getElem inside⟩
    obtain ⟨level', at_level', shape⟩ := table.node i node at_node
    rw [at_i] at at_level'
    cases at_level'
    cases node with
    | zero =>
      rw [shape] at natural
      cases natural
      exact Nat.zero_le _
    | succ inner =>
      obtain ⟨l, at_l, rfl⟩ := shape
      have earlier := references.ordered i _ at_node inner.toNat
        (by simp [LevelNode.children, LevelNode.levels])
      rw [levelAsNat_succ, Option.bind_eq_some_iff] at natural
      obtain ⟨m, at_m, natural⟩ := natural
      have below := ih _ earlier at_l at_m
      split at natural
      · cases natural
        omega
      · cases natural
    | max _ _ | imax _ _ =>
      obtain ⟨_, _, _, _, rfl⟩ := shape
      cases natural
    | param _ =>
      rw [shape] at natural
      cases natural

/-- The entries of `naturals` before an index. -/
def naturalsBefore (levels : List Kernel.Level) (i : Nat) : List (Option Nat) :=
  (levels.take i).map levelAsNat

theorem naturalsBefore_join {i : Nat} {id : Id} (earlier : id.toNat < i)
    (found : levels[id.toNat]? = some level) :
    ((naturalsBefore levels i)[id.toNat]?).join = levelAsNat level := by
  rw [naturalsBefore, List.getElem?_map, List.getElem?_take_of_lt earlier, found, Option.map_some,
    Option.join_some]

/-- Below `2 ^ 32` nodes the counters of the check and of the kernel agree. -/
theorem levelNatural_eq (references : ValidatedLevelReferences cert)
    (table : KernelTable cert levels) (size : cert.levelTable.length ≤ 2 ^ 32) {i : Nat}
    (at_node : cert.levelTable[i]? = some node) (shape : NodeLevel cert levels level node) :
    levelNatural (naturalsBefore levels i) node = levelAsNat level := by
  cases node with
  | zero =>
    rw [shape]
    rfl
  | succ inner =>
    obtain ⟨l, at_l, rfl⟩ := shape
    have earlier := references.ordered i _ at_node inner.toNat
      (by simp [LevelNode.children, LevelNode.levels])
    have inside := (List.getElem?_eq_some_iff.mp at_node).1
    rw [levelNatural, naturalsBefore_join earlier at_l, levelAsNat_succ]
    cases natural : levelAsNat l with
    | none => rfl
    | some n =>
      have small := natural_le references table _ at_l natural
      rw [Option.bind_some, Option.bind_some, if_pos (by omega), if_pos (by omega)]
  | max _ _ | imax _ _ =>
    obtain ⟨_, _, _, _, rfl⟩ := shape
    rfl
  | param _ =>
    rw [shape]
    rfl

/-! ### What the check accepts -/

theorem normal_max_iff {lhs rhs : Kernel.Level} :
    normalizeLevel (.max lhs rhs) = .max lhs rhs ↔
      normalizeLevel lhs = lhs ∧ normalizeLevel rhs = rhs ∧ OrderedPair lhs rhs := by
  constructor
  · intro normal
    obtain ⟨left, right⟩ := Level.normal_of_max normal
    rw [normalizeLevel, left, right] at normal
    refine ⟨left, right, ?_⟩
    rcases Level.normalizeMaxPair_cases lhs rhs with same | same | ⟨n, same⟩ | ⟨_, pair⟩ | ⟨same, pair⟩
    · rw [same] at normal
      exact absurd (congrArg Level.size normal) (by simp only [Level.size]; omega)
    · rw [same] at normal
      exact absurd (congrArg Level.size normal) (by simp only [Level.size]; omega)
    · rw [same] at normal
      cases n <;> cases normal
    · exact pair
    · rw [same] at normal
      cases (Level.max.inj normal).1
      exact absurd rfl pair.differ
  · rintro ⟨left, right, pair⟩
    rw [normalizeLevel, left, right, Level.normalizeMaxPair_ordered pair]

theorem normal_imax_iff {lhs rhs : Kernel.Level} :
    normalizeLevel (.imax lhs rhs) = .imax lhs rhs ↔
      normalizeLevel lhs = lhs ∧ normalizeLevel rhs = rhs ∧ rhs ≠ .zero ∧
        ∀ inner, rhs ≠ .succ inner := by
  constructor
  · intro normal
    obtain ⟨left, right⟩ := Level.normal_of_imax normal
    rw [normalizeLevel, left, right] at normal
    refine ⟨left, right, ?_, ?_⟩
    · rintro rfl
      cases normal
    · rintro inner rfl
      rw [Level.normalizeIMaxPair] at normal
      rcases Level.normalizeMaxPair_cases lhs (.succ inner) with
        same | same | ⟨n, same⟩ | ⟨same, _⟩ | ⟨same, _⟩
      · rw [same] at normal
        exact absurd (congrArg Level.size normal) (by simp only [Level.size]; omega)
      · rw [same] at normal
        cases normal
      · rw [same] at normal
        cases n <;> cases normal
      · rw [same] at normal
        cases normal
      · rw [same] at normal
        cases normal
  · rintro ⟨left, right, positive, plain⟩
    rw [normalizeLevel, left, right]
    cases rhs with
    | zero => exact absurd rfl positive
    | succ inner => exact absurd rfl (plain inner)
    | max _ _ | imax _ _ | param _ => rfl

theorem isZeroNode_iff (table : KernelTable cert levels) {id : Id}
    (found : levels[id.toNat]? = some level) : isZeroNode cert id = true ↔ level = .zero := by
  obtain ⟨node, at_node⟩ : ∃ node, cert.levelTable[id.toNat]? = some node :=
    ⟨_, List.getElem?_eq_getElem (table.inside found)⟩
  obtain ⟨level', at_level', shape⟩ := table.node _ node at_node
  rw [found] at at_level'
  cases at_level'
  rw [isZeroNode, at_node, decide_eq_true_eq, Option.some.injEq]
  cases node with
  | zero => exact ⟨fun _ => shape, fun _ => rfl⟩
  | succ _ =>
    obtain ⟨_, _, rfl⟩ := shape
    simp
  | max _ _ | imax _ _ =>
    obtain ⟨_, _, _, _, rfl⟩ := shape
    simp
  | param _ =>
    rw [shape]
    simp

theorem isSuccNode_iff (table : KernelTable cert levels) {id : Id}
    (found : levels[id.toNat]? = some level) :
    isSuccNode cert id = true ↔ ∃ inner, level = .succ inner := by
  obtain ⟨node, at_node⟩ : ∃ node, cert.levelTable[id.toNat]? = some node :=
    ⟨_, List.getElem?_eq_getElem (table.inside found)⟩
  obtain ⟨level', at_level', shape⟩ := table.node _ node at_node
  rw [found] at at_level'
  cases at_level'
  rw [isSuccNode, at_node]
  cases node with
  | zero | param _ =>
    rw [shape]
    simp
  | succ _ =>
    obtain ⟨l, _, rfl⟩ := shape
    simp
  | max _ _ | imax _ _ =>
    obtain ⟨_, _, _, _, rfl⟩ := shape
    simp

/-- Levels at different places of a table without repetitions differ. -/
theorem ne_of_nodup (distinct : levels.Nodup) {lhs rhs : Id} {left right : Kernel.Level}
    (at_lhs : levels[lhs.toNat]? = some left) (at_rhs : levels[rhs.toNat]? = some right) :
    lhs ≠ rhs ↔ left ≠ right := by
  obtain ⟨insideL, rfl⟩ := List.getElem?_eq_some_iff.mp at_lhs
  obtain ⟨insideR, rfl⟩ := List.getElem?_eq_some_iff.mp at_rhs
  rw [ne_eq, ne_eq, List.Nodup.getElem_inj_iff distinct, UInt64.toNat_inj]

/-- With the levels before normal, the check of a node says whether its level is. -/
theorem nodeIsNormalized_eq (references : ValidatedLevelReferences cert)
    (table : KernelTable cert levels) (distinct : levels.Nodup) {i : Nat}
    (at_node : cert.levelTable[i]? = some node) (shape : NodeLevel cert levels level node)
    (before : ∀ (j : Nat) l, j < i → levels[j]? = some l → normalizeLevel l = l) :
    nodeIsNormalized references (naturalsBefore levels i) node =
      .ok (decide (normalizeLevel level = level)) := by
  have earlier := references.ordered i node at_node
  cases node with
  | zero | param _ =>
    rw [shape]
    simp [nodeIsNormalized, normalizeLevel]
  | succ inner =>
    obtain ⟨l, at_l, rfl⟩ := shape
    have normal := before _ l (earlier inner.toNat (by simp [LevelNode.children, LevelNode.levels]))
      at_l
    simp [nodeIsNormalized, normalizeLevel, normal]
  | max lhs rhs =>
    obtain ⟨l, r, at_l, at_r, rfl⟩ := shape
    have first := earlier lhs.toNat (by simp [LevelNode.children, LevelNode.levels])
    have second := earlier rhs.toNat (by simp [LevelNode.children, LevelNode.levels])
    have same : (lhs ≠ rhs ∧ !isZeroNode cert lhs ∧ !isZeroNode cert rhs ∧
        !(isNatural (naturalsBefore levels i) lhs && isNatural (naturalsBefore levels i) rhs)) ↔
        l ≠ r ∧ l ≠ .zero ∧ r ≠ .zero ∧ (levelAsNat l = none ∨ levelAsNat r = none) := by
      rw [ne_of_nodup distinct at_l at_r, isNatural, isNatural, naturalsBefore_join first at_l,
        naturalsBefore_join second at_r]
      refine and_congr_right fun _ => ?_
      rw [Bool.not_eq_true', Bool.not_eq_true', ← Bool.not_eq_true, ← Bool.not_eq_true,
        isZeroNode_iff table at_l, isZeroNode_iff table at_r]
      refine and_congr_right fun _ => and_congr_right fun _ => ?_
      cases levelAsNat l <;> cases levelAsNat r <;> simp
    -- the normal form compares the two the other way round
    have pair : OrderedPair l r ↔
        (l ≠ r ∧ l ≠ .zero ∧ r ≠ .zero ∧ (levelAsNat l = none ∨ levelAsNat r = none)) ∧
          levelCmpStackSafe l r ≠ .gt := by
      have swapped : levelCmpStackSafe r l ≠ .lt ↔ levelCmpStackSafe l r ≠ .gt := by
        rw [← Level.levelCmpStackSafe_swap l r]
        cases levelCmpStackSafe l r <;> simp
      rw [← swapped]
      constructor
      · rintro ⟨a, b, c, d, e⟩
        exact ⟨⟨a, b, c, d⟩, e⟩
      · rintro ⟨⟨a, b, c, d⟩, e⟩
        exact ⟨a, b, c, d, e⟩
    have normal : normalizeLevel (.max l r) = .max l r ↔ OrderedPair l r := by
      rw [normal_max_iff, and_iff_right (before _ l first at_l),
        and_iff_right (before _ r second at_r)]
    rw [nodeIsNormalized]
    by_cases applies :
        l ≠ r ∧ l ≠ .zero ∧ r ≠ .zero ∧ (levelAsNat l = none ∨ levelAsNat r = none)
    · rw [if_pos (same.mpr applies), compareLevels_eq references table at_l at_r, ok_bind]
      simp only [normal, pair, and_iff_right applies]
    · rw [if_neg (mt same.mp applies)]
      simp only [normal, pair, applies, false_and, decide_false]
  | imax lhs rhs =>
    obtain ⟨l, r, at_l, at_r, rfl⟩ := shape
    have first := earlier lhs.toNat (by simp [LevelNode.children, LevelNode.levels])
    have second := earlier rhs.toNat (by simp [LevelNode.children, LevelNode.levels])
    have normal : normalizeLevel (.imax l r) = .imax l r ↔ r ≠ .zero ∧ ∀ inner, r ≠ .succ inner := by
      rw [normal_imax_iff, and_iff_right (before _ l first at_l),
        and_iff_right (before _ r second at_r)]
    have same : (!(isZeroNode cert rhs || isSuccNode cert rhs)) = true ↔
        r ≠ .zero ∧ ∀ inner, r ≠ .succ inner := by
      rw [Bool.not_eq_true', Bool.or_eq_false_iff, ← Bool.not_eq_true, ← Bool.not_eq_true,
        isZeroNode_iff table at_r, isSuccNode_iff table at_r, not_exists]
    rw [nodeIsNormalized]
    congr 1
    rw [Bool.eq_iff_iff, same, decide_eq_true_eq, normal]

theorem checkSucc_ok (references : ValidatedLevelReferences cert) {i : Nat}
    (at_node : cert.levelTable[i]? = some node) : checkSucc i node = .ok () := by
  cases node with
  | succ inner =>
    have earlier := references.ordered i _ at_node inner.toNat
      (by simp [LevelNode.children, LevelNode.levels])
    exact ensure_eq_ok.mpr (decide_eq_true earlier)
  | zero | max _ _ | imax _ _ | param _ => rfl

/-- The loop from a place on, with the levels before normal. -/
theorem normalizedFrom_eq (references : ValidatedLevelReferences cert)
    (table : KernelTable cert levels) (size : cert.levelTable.length ≤ 2 ^ 32)
    (distinct : levels.Nodup) {rest : List LevelNode} {i : Nat}
    (at_rest : cert.levelTable.drop i = rest)
    (before : ∀ (j : Nat) l, j < i → levels[j]? = some l → normalizeLevel l = l) :
    normalizedFrom references (naturalsBefore levels i) rest =
      .ok (decide (∀ level ∈ levels.drop i, normalizeLevel level = level)) := by
  induction rest generalizing i with
  | nil =>
    have none := List.drop_eq_nil_iff.mp at_rest
    rw [← table.length] at none
    rw [normalizedFrom, List.drop_eq_nil_of_le none]
    rfl
  | cons node rest ih =>
    have at_node : cert.levelTable[i]? = some node := by
      rw [← List.head?_drop, at_rest, List.head?_cons]
    have inside := (List.getElem?_eq_some_iff.mp at_node).1
    obtain ⟨level, at_level, shape⟩ := table.node i node at_node
    have insideLevels := (List.getElem?_eq_some_iff.mp at_level).1
    have split_levels : levels.drop i = level :: levels.drop (i + 1) := by
      rw [List.drop_eq_getElem_cons insideLevels, (List.getElem?_eq_some_iff.mp at_level).2]
    have later : cert.levelTable.drop (i + 1) = rest := by
      rw [List.drop_eq_getElem_cons inside] at at_rest
      exact (List.cons.inj at_rest).2
    have length : (naturalsBefore levels i).length = i := by
      rw [naturalsBefore, List.length_map, List.length_take, Nat.min_eq_left (by omega)]
    have naturals : naturalsBefore levels i ++ [levelNatural (naturalsBefore levels i) node] =
        naturalsBefore levels (i + 1) := by
      rw [levelNatural_eq references table size at_node shape, naturalsBefore, naturalsBefore,
        List.take_add_one, at_level, Option.toList_some, List.map_append, List.map_singleton]
    rw [normalizedFrom, nodeIsNormalized_eq references table distinct at_node shape before, ok_bind,
      split_levels]
    by_cases normal : normalizeLevel level = level
    · have next : ∀ (j : Nat) l, j < i + 1 → levels[j]? = some l → normalizeLevel l = l := by
        intro j l below at_j
        rcases Nat.lt_succ_iff_lt_or_eq.mp below with below | rfl
        · exact before j l below at_j
        · rw [at_level] at at_j
          cases at_j
          exact normal
      simp only [normal, decide_true, Bool.not_true, Bool.false_eq_true, if_false, length,
        checkSucc_ok references at_node, ok_bind, naturals, ih later next, List.forall_mem_cons,
        true_and]
    · simp [normal]

end Table

/-- On a table of at most `2 ^ 32` distinct levels the check of the certificate accepts exactly
    the tables whose levels are their own normal forms in the kernel. -/
theorem levelTableIsNormalized_eq (cert : ModuleCert) (references : ValidatedLevelReferences cert)
    (size : cert.levelTable.length ≤ 2 ^ 32) {trees : List TableLevel}
    (unfolds : unfoldLevels cert.levelTable = .ok trees)
    (distinct : (kernelLevels cert trees).Nodup) :
    levelTableIsNormalized cert references =
      .ok (decide (∀ level ∈ kernelLevels cert trees, normalizeLevel level = level)) := by
  have whole := normalizedFrom_eq references (kernelTable_of_unfolds unfolds) size distinct
    (List.drop_zero (l := cert.levelTable)) (fun _ _ none => absurd none (Nat.not_lt_zero _))
  simpa [levelTableIsNormalized, naturalsBefore] using whole

/-- A module with a level table over one universe parameter. -/
def levelModule (table : List LevelNode) : ModuleCert :=
  { emptyModuleCert ⟨["Std"]⟩ with nameTable := [⟨["u"]⟩], levelTable := table }

/-- `u`, `u + 1` and `max (u + 1) u`. -/
theorem levelTableIsNormalized_eq_at_three :
    ∃ references, levelTableIsNormalized (levelModule [.param 0, .succ 0, .max 1 0]) references =
      .ok true := by
  have references : ValidatedLevelReferences (levelModule [.param 0, .succ 0, .max 1 0]) :=
    checkLevelReferences_eq_ok_iff.mp (rfl : _ = Except.ok ())
  have unfolds : unfoldLevels (levelModule [.param 0, .succ 0, .max 1 0]).levelTable =
      .ok [.param 0, .succ (.param 0), .max (.succ (.param 0)) (.param 0)] := rfl
  have accepted := levelTableIsNormalized_eq _ references (by decide) unfolds (by decide +kernel)
  exact ⟨references, accepted.trans (congrArg Except.ok (by decide +kernel))⟩

/-- Two nodes for one parameter: their maximum is accepted, and the kernel makes it smaller. -/
theorem levelTableIsNormalized_accepts_duplicates :
    ¬ ∀ cert (references : ValidatedLevelReferences cert) (trees : List TableLevel),
      unfoldLevels cert.levelTable = .ok trees →
        (levelTableIsNormalized cert references = .ok true ↔
          ∀ level ∈ kernelLevels cert trees, normalizeLevel level = level) := by
  intro all
  have references : ValidatedLevelReferences (levelModule [.param 0, .param 0, .max 0 1]) :=
    checkLevelReferences_eq_ok_iff.mp (rfl : _ = Except.ok ())
  have unfolds : unfoldLevels (levelModule [.param 0, .param 0, .max 0 1]).levelTable =
      .ok [.param 0, .param 0, .max (.param 0) (.param 0)] := rfl
  have order : compareLevels references 0 1 =
      .ok (levelCmpStackSafe (.param "u" : Kernel.Level) (.param "u")) :=
    compareLevels_eq references (kernelTable_of_unfolds unfolds) (by decide +kernel)
      (by decide +kernel)
  have accepted : levelTableIsNormalized _ references = .ok true := by
    change ((compareLevels references 0 1 >>= fun order => .ok (decide (order ≠ .gt))) >>=
      fun normalized => if !normalized then .ok false else .ok true) = _
    rw [order, Level.levelCmpStackSafe_refl]
    rfl
  have smaller := (all _ references _ unfolds).mp accepted (.max (.param "u") (.param "u"))
    (by decide +kernel)
  exact absurd smaller (by decide +kernel)

end NpaCore.Wire
