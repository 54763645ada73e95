import NpaCore.Lib.Worklist
import NpaCore.Wire.Structural

/-!
# Scope and reachability in the tables

`verify_reachable_tables_and_bvars` of `npa-cert/src/verify.rs`. One pass computes how many
binders the loose variables of a node need; only when it is not zero the older search over
nodes and depths is run, for its error. Both count in `u32` and stop at the largest value.

## Main results

* `verifyTermScope_isOk_iff`: what the search accepts, by the places of the variables.
* `looseBvarBounds_exact`: the search accepts a node at a depth exactly when the bound of the
  node is at most the depth and `BVar(u32::MAX)` is not below it.
* `verifyReachableTablesAndBvars_sound`: an accepted certificate has no loose variables and
  no unused nodes.
-/

namespace NpaCore.Wire

open NpaCore.Result NpaCore.ForwardPass

def u32Max : UInt32 := 4294967295

/-- `index.saturating_add(1)`. -/
def saturatingSucc (index : UInt32) : UInt32 := if index = u32Max then u32Max else index + 1

/-- `bound.saturating_sub(1)`. -/
def saturatingPred (bound : UInt32) : UInt32 := if bound = 0 then 0 else bound - 1

theorem toNat_le_u32Max (index : UInt32) : index.toNat ≤ u32Max.toNat := by
  have bound := index.toNat_lt
  have value : u32Max.toNat = 2 ^ 32 - 1 := rfl
  omega

theorem toNat_saturatingSucc (index : UInt32) :
    (saturatingSucc index).toNat = min (index.toNat + 1) u32Max.toNat := by
  have bound := toNat_le_u32Max index
  have value : u32Max.toNat = 2 ^ 32 - 1 := rfl
  rw [saturatingSucc]
  split
  next last =>
    rw [last]
    omega
  next inner =>
    have below : index.toNat ≠ u32Max.toNat := fun same => inner (UInt32.toNat_inj.mp same)
    rw [UInt32.toNat_add, UInt32.toNat_one, Nat.mod_eq_of_lt (by omega)]
    omega

theorem toNat_saturatingPred (bound : UInt32) : (saturatingPred bound).toNat = bound.toNat - 1 := by
  rw [saturatingPred]
  split
  next zero => rw [zero, UInt32.toNat_zero]
  next positive =>
    have above : bound.toNat ≠ 0 := fun zero => positive (UInt32.toNat_inj.mp zero)
    have one : (1 : UInt32).toNat = 1 := rfl
    rw [UInt32.toNat_sub_of_le _ _ (UInt32.le_iff_toNat_le.mpr (by omega)), one]

/-! ### The fast path -/

/-- The body of the loop of `term_node_loose_bvar_bounds`. -/
def looseBvarBound (done : List UInt32) : TermNode → CertResult UInt32
  | .sort _ | .const _ _ => .ok 0
  | .bvar index => .ok (saturatingSucc index)
  | .app fn arg => do
    let fn ← checkedChild done fn
    let arg ← checkedChild done arg
    .ok (max fn arg)
  | .lam ty body | .pi ty body => do
    let ty ← checkedChild done ty
    let body ← checkedChild done body
    .ok (max ty (saturatingPred body))

def termNodeLooseBvarBounds (table : List TermNode) : CertResult (List UInt32) :=
  run looseBvarBound [] table

/-! ### The search over nodes and depths -/

/-- What `verify_term_scope` does with a node at a depth that it has not seen. -/
def scopeStep (table : List TermNode) (key : Nat × UInt32) :
    CertResult (List (Nat × UInt32)) := do
  let node ← Result.okOr table[key.1]? .decodeError
  match node with
  | .sort _ | .const _ _ => .ok []
  | .bvar index => if key.2 ≤ index then .error (.invalidBVar index) else .ok []
  | .app fn arg => .ok [(fn.toNat, key.2), (arg.toNat, key.2)]
  | .lam ty body | .pi ty body => .ok [(ty.toNat, key.2), (body.toNat, saturatingSucc key.2)]

theorem lt_of_okOr {α β : Type} {table : List α} {index : Nat} {rest : α → CertResult β} {b : β}
    (h : (Result.okOr table[index]? .decodeError >>= rest) = .ok b) : index < table.length := by
  obtain ⟨node, at_index, _⟩ := bind_eq_ok.mp h
  exact (List.getElem?_eq_some_iff.mp (okOr_eq_ok.mp at_index)).1

theorem finite_uint32 : Set.Finite (Set.univ : Set UInt32) :=
  (Set.finite_lt_nat (2 ^ 32)).of_injOn (f := UInt32.toNat) (fun index _ => index.toNat_lt)
    fun _ _ _ _ same => UInt32.toNat_inj.mp same

/-- The search of `verify_term_scope`. -/
def scopeSearch (table : List TermNode) : Worklist (Nat × UInt32) CertError where
  expand := scopeStep table
  finite := ((Set.finite_lt_nat table.length).prod finite_uint32).subset
    fun _ ⟨_, expands⟩ => ⟨lt_of_okOr expands, trivial⟩

/-- `verify_term_scope` with nothing seen before. -/
def verifyTermScope (table : List TermNode) (term : Nat) (depth : UInt32) :
    CertResult (List (Nat × UInt32)) :=
  (scopeSearch table).close [(term, depth)] []

/-! ### Variables and the binders above them -/

/-- The children of a node, each with the number of variables that the node binds in it. -/
def TermNode.scoped : TermNode → List (Nat × Nat)
  | .sort _ | .bvar _ | .const _ _ => []
  | .app fn arg => [(fn.toNat, 0), (arg.toNat, 0)]
  | .lam ty body | .pi ty body => [(ty.toNat, 0), (body.toNat, 1)]

/-- Below the first node the second occurs under so many binders. -/
inductive Occurs (table : List TermNode) : Nat → Nat → Nat → Prop where
  | here (node : Nat) : Occurs table node node 0
  | under {parent child node binders depth : Nat} {entry : TermNode}
      (at_parent : table[parent]? = some entry) (part : (child, binders) ∈ entry.scoped)
      (occurs : Occurs table child node depth) : Occurs table parent node (depth + binders)

/-- Every variable below the node is one of the `depth` in scope or bound on the way. -/
def BoundWithin (table : List TermNode) (node depth : Nat) : Prop :=
  ∀ place binders index, Occurs table node place binders → table[place]? = some (.bvar index) →
    index.toNat < depth + binders

theorem mem_scoped_children {node : TermNode} {child binders : Nat}
    (part : (child, binders) ∈ node.scoped) : child ∈ node.children := by
  cases node with
  | sort _ | bvar _ | const _ _ => simp [TermNode.scoped] at part
  | app _ _ | lam _ _ | pi _ _ =>
    simp only [TermNode.scoped, List.mem_cons, Prod.mk.injEq, List.not_mem_nil, or_false] at part
    simp only [TermNode.children, TermNode.terms, List.map_cons, List.map_nil, List.mem_cons,
      List.not_mem_nil, or_false]
    exact part.imp And.left And.left

theorem exists_scoped {node : TermNode} {child : Nat} (part : child ∈ node.children) :
    ∃ binders, (child, binders) ∈ node.scoped := by
  cases node with
  | sort _ | bvar _ | const _ _ => simp [TermNode.children, TermNode.terms] at part
  | app _ _ | lam _ _ | pi _ _ =>
    simp only [TermNode.children, TermNode.terms, List.map_cons, List.map_nil, List.mem_cons,
      List.not_mem_nil, or_false] at part
    rcases part with rfl | rfl
    · exact ⟨_, List.mem_cons_self⟩
    · exact ⟨_, List.mem_cons_of_mem _ List.mem_cons_self⟩

theorem scoped_le_one {node : TermNode} {child binders : Nat}
    (part : (child, binders) ∈ node.scoped) : binders ≤ 1 := by
  cases node with
  | sort _ | bvar _ | const _ _ => simp [TermNode.scoped] at part
  | app _ _ | lam _ _ | pi _ _ =>
    simp only [TermNode.scoped, List.mem_cons, Prod.mk.injEq, List.not_mem_nil, or_false] at part
    omega

section Table

variable {table : List TermNode}

/-- Every step on the way passes at most one binder and goes to an earlier node. -/
theorem Occurs.binders_le (ordered : Ordered TermNode.children table) {node place binders : Nat}
    (occurs : Occurs table node place binders) : place + binders ≤ node := by
  induction occurs with
  | here node => exact Nat.le_refl _
  | under at_parent part _ ih =>
    have earlier := ordered _ _ at_parent _ (mem_scoped_children part)
    have one := scoped_le_one part
    omega

/-- What holds at all places below a node, by the node and its children. -/
theorem forall_occurs_iff {node : Nat} {entry : TermNode} (at_node : table[node]? = some entry)
    {P : Nat → Nat → Prop} :
    (∀ place binders, Occurs table node place binders → P place binders) ↔
      P node 0 ∧ ∀ child extra, (child, extra) ∈ entry.scoped →
        ∀ place binders, Occurs table child place binders → P place (binders + extra) := by
  constructor
  · intro all
    exact ⟨all node 0 (.here node), fun child extra part place binders occurs =>
      all place (binders + extra) (.under at_node part occurs)⟩
  · rintro ⟨here, below⟩ place binders occurs
    cases occurs with
    | here => exact here
    | under at_parent part occurs =>
      rw [at_node] at at_parent
      cases at_parent
      exact below _ _ part place _ occurs

/-! ### What the search accepts -/

/-- The depth below so many binders. -/
def deepen (depth : UInt32) (binders : Nat) : UInt32 :=
  if binders = 0 then depth else saturatingSucc depth

theorem toNat_deepen (depth : UInt32) {binders : Nat} (one : binders ≤ 1) :
    (deepen depth binders).toNat = min (depth.toNat + binders) u32Max.toNat := by
  have bound := toNat_le_u32Max depth
  rw [deepen]
  split
  next none =>
    rw [none]
    omega
  next some =>
    obtain rfl : binders = 1 := by omega
    exact toNat_saturatingSucc depth

theorem scopeStep_eq_ok {key : Nat × UInt32} {next : List (Nat × UInt32)} :
    scopeStep table key = .ok next ↔ ∃ node, table[key.1]? = some node ∧
      (∀ index, node = .bvar index → index < key.2) ∧
      next = node.scoped.map fun part => (part.1, deepen key.2 part.2) := by
  simp only [scopeStep, bind_eq_ok, okOr_eq_ok]
  refine exists_congr fun node => and_congr_right fun _ => ?_
  cases node with
  | bvar index =>
    by_cases outside : key.2 ≤ index
    · simp [outside, TermNode.scoped]
    · simp [outside, TermNode.scoped, UInt32.not_le.mp outside, eq_comm]
  | sort _ | const _ _ | app _ _ | lam _ _ | pi _ _ => simp [TermNode.scoped, deepen, eq_comm]

/-- The search goes from a node to the places below it, counting binders up to the largest
    number. -/
theorem reaches_iff {node place : Nat} {depth depth' : UInt32} :
    (scopeSearch table).Reaches (node, depth) (place, depth') ↔
      ∃ binders, Occurs table node place binders ∧
        depth'.toNat = min (depth.toNat + binders) u32Max.toNat := by
  constructor
  · intro reaches
    generalize start : (node, depth) = key at reaches
    induction reaches using Relation.ReflTransGen.head_induction_on generalizing node depth with
    | refl =>
      cases start
      refine ⟨0, .here _, ?_⟩
      have bound := toNat_le_u32Max depth'
      omega
    | head leads _ ih =>
      subst start
      obtain ⟨next, expands, mem⟩ := leads
      obtain ⟨entry, at_node, _, rfl⟩ := scopeStep_eq_ok.mp expands
      obtain ⟨⟨child, extra⟩, part, rfl⟩ := List.mem_map.mp mem
      obtain ⟨binders, occurs, count⟩ := ih rfl
      rw [toNat_deepen depth (scoped_le_one part)] at count
      exact ⟨binders + extra, .under at_node part occurs, by omega⟩
  · rintro ⟨binders, occurs, count⟩
    induction occurs generalizing depth with
    | here node =>
      have bound := toNat_le_u32Max depth
      obtain rfl : depth' = depth := UInt32.toNat_inj.mp (by omega)
      exact .refl
    | @under parent child place extra binders entry at_parent part occurs ih =>
      have one := scoped_le_one part
      have deeper := toNat_deepen depth one
      have rest : depth'.toNat = min ((deepen depth extra).toNat + binders) u32Max.toNat := by
        omega
      refine .head ⟨_, scopeStep_eq_ok.mpr ⟨entry, at_parent, ?_, rfl⟩,
        List.mem_map_of_mem part⟩ (ih rest)
      rintro index rfl
      simp [TermNode.scoped] at part

/-- In an ordered table the search accepts a node when each variable below it is smaller than
    the depth where it stands, as the search counts it. -/
theorem verifyTermScope_isOk_iff (ordered : Ordered TermNode.children table) {node : Nat}
    (inside : node < table.length) (depth : UInt32) :
    (∃ seen, verifyTermScope table node depth = .ok seen) ↔
      ∀ place binders, Occurs table node place binders →
        ∀ index, table[place]? = some (.bvar index) →
          index.toNat < min (depth.toNat + binders) u32Max.toNat := by
  rw [verifyTermScope, Worklist.close_isOk_iff Worklist.closed_nil]
  simp only [List.mem_singleton, forall_eq, Prod.forall]
  constructor
  · intro accepts place binders occurs index at_place
    have small : min (depth.toNat + binders) u32Max.toNat < UInt32.size :=
      Nat.lt_of_le_of_lt (Nat.min_le_right _ _) u32Max.toNat_lt
    have value := UInt32.toNat_ofNat_of_lt' small
    obtain ⟨next, expands⟩ := accepts place _ (reaches_iff.mpr ⟨binders, occurs, value⟩)
    obtain ⟨entry, at_entry, variable_ok, _⟩ := scopeStep_eq_ok.mp expands
    rw [at_place] at at_entry
    cases at_entry
    have below := UInt32.lt_iff_toNat_lt.mp (variable_ok index rfl)
    rwa [value] at below
  · intro accepts place depth' reaches
    obtain ⟨binders, occurs, count⟩ := reaches_iff.mp reaches
    have earlier := occurs.binders_le ordered
    have here := List.getElem?_eq_getElem (l := table) (i := place) (by omega)
    refine ⟨_, scopeStep_eq_ok.mpr ⟨_, here, ?_, rfl⟩⟩
    intro index same
    have below := accepts place binders occurs index (by rw [here, same])
    rw [← count] at below
    exact UInt32.lt_iff_toNat_lt.mpr below

/-! ### What the bound says -/

theorem termNodeLooseBvarBounds_isOk_iff :
    (∃ bounds, termNodeLooseBvarBounds table = .ok bounds) ↔ Ordered TermNode.children table := by
  have steps : ∀ node : TermNode, ∀ done : List UInt32,
      (∃ bound, looseBvarBound done node = .ok bound) ↔
        ∀ child ∈ node.children, child < done.length := by
    intro node done
    cases node with
    | sort _ | bvar _ | const _ _ => simp [looseBvarBound, TermNode.children, TermNode.terms]
    | app first second | lam first second | pi first second => exact checkedPair_isOk_iff
  rw [ordered_iff_from]
  exact run_isOk_iff fun node _ done => steps node done

/-- The bound of a node in terms of the bounds of its children. -/
theorem looseBvarBound_le_iff {done : List UInt32} {node : TermNode} {bound : UInt32}
    (h : looseBvarBound done node = .ok bound) (depth : Nat) :
    bound.toNat ≤ depth ↔
      (∀ index, node = .bvar index → min (index.toNat + 1) u32Max.toNat ≤ depth) ∧
      ∀ child extra, (child, extra) ∈ node.scoped →
        ∃ value, done[child]? = some value ∧ value.toNat ≤ depth + extra := by
  cases node with
  | sort _ | const _ _ =>
    cases h
    simp [TermNode.scoped]
  | bvar index =>
    cases h
    simp [TermNode.scoped, toNat_saturatingSucc]
  | app first second =>
    obtain ⟨left, leftFound, h⟩ := bind_eq_ok.mp h
    obtain ⟨right, rightFound, h⟩ := bind_eq_ok.mp h
    cases h
    rw [checkedChild_eq_ok] at leftFound rightFound
    rw [UInt32.toNat_max]
    simp [TermNode.scoped, or_imp, forall_and, leftFound, rightFound]
  | lam first second | pi first second =>
    obtain ⟨left, leftFound, h⟩ := bind_eq_ok.mp h
    obtain ⟨right, rightFound, h⟩ := bind_eq_ok.mp h
    cases h
    rw [checkedChild_eq_ok] at leftFound rightFound
    rw [UInt32.toNat_max, toNat_saturatingPred]
    simp [TermNode.scoped, or_imp, forall_and, leftFound, rightFound]

/-- The bound of a node says how deep each variable below it must stand, with the number of a
    variable cut off at the largest one. The induction is on the place of the node. -/
theorem bound_le_iff (ordered : Ordered TermNode.children table) {bounds : List UInt32}
    (h : termNodeLooseBvarBounds table = .ok bounds) (node : Nat) {bound : UInt32}
    (at_node : bounds[node]? = some bound) (depth : Nat) :
    bound.toNat ≤ depth ↔
      ∀ place binders, Occurs table node place binders →
        ∀ index, table[place]? = some (.bvar index) →
          min (index.toNat + 1) u32Max.toNat ≤ depth + binders := by
  induction node using Nat.strongRecOn generalizing bound depth with
  | ind node ih =>
    have length := run_length h
    have inside := (List.getElem?_eq_some_iff.mp at_node).1
    rw [length, List.length_nil, Nat.zero_add] at inside
    have at_table := List.getElem?_eq_getElem inside
    obtain ⟨bound', at_node', step⟩ := run_entry h at_table
    rw [List.length_nil, Nat.zero_add] at at_node' step
    rw [at_node] at at_node'
    cases at_node'
    rw [looseBvarBound_le_iff step, forall_occurs_iff at_table]
    refine and_congr ?_ (forall_congr' fun child => forall_congr' fun extra =>
      forall_congr' fun part => ?_)
    · simp only [at_table, Option.some.injEq, Nat.add_zero]
    · have earlier := ordered node _ at_table child (mem_scoped_children part)
      have at_child := List.getElem?_eq_getElem (l := bounds) (i := child)
        (by rw [length, List.length_nil]; omega)
      have taken : (bounds.take node)[child]? = bounds[child]? := List.getElem?_take_of_lt earlier
      have below := ih child earlier at_child (depth + extra)
      simp only [taken, at_child, Option.some.injEq, exists_eq_left', below]
      refine forall_congr' fun place => forall_congr' fun binders => forall_congr' fun _ =>
        forall_congr' fun index => forall_congr' fun _ => ?_
      omega

/-- The search and the bound part only over the variable with the largest number, which the
    search never accepts. -/
theorem verifyTermScope_iff_bound (ordered : Ordered TermNode.children table)
    {bounds : List UInt32} (h : termNodeLooseBvarBounds table = .ok bounds) {node : Nat}
    {bound : UInt32} (at_node : bounds[node]? = some bound) (depth : UInt32) :
    (∃ seen, verifyTermScope table node depth = .ok seen) ↔
      bound ≤ depth ∧ ∀ place binders, Occurs table node place binders →
        table[place]? ≠ some (.bvar u32Max) := by
  have inside : node < table.length := by
    have inside := (List.getElem?_eq_some_iff.mp at_node).1
    rwa [run_length h, List.length_nil, Nat.zero_add] at inside
  rw [verifyTermScope_isOk_iff ordered inside, UInt32.le_iff_toNat_le,
    bound_le_iff ordered h node at_node]
  constructor
  · intro accepts
    refine ⟨fun place binders occurs index at_place => ?_, fun place binders occurs at_place => ?_⟩
    · have below := accepts place binders occurs index at_place
      omega
    · have below := accepts place binders occurs u32Max at_place
      omega
  · rintro ⟨bounded, none⟩ place binders occurs index at_place
    have enough := bounded place binders occurs index at_place
    have largest := toNat_le_u32Max index
    have other : index.toNat ≠ u32Max.toNat := by
      intro same
      rw [UInt32.toNat_inj.mp same] at at_place
      exact none place binders occurs at_place
    omega

/-- When the depths that can be met stay below the largest number, the bound decides. -/
theorem verifyTermScope_iff_le (ordered : Ordered TermNode.children table)
    {bounds : List UInt32} (h : termNodeLooseBvarBounds table = .ok bounds) {node : Nat}
    {bound : UInt32} (at_node : bounds[node]? = some bound) {depth : UInt32}
    (small : depth.toNat + table.length < 2 ^ 32) :
    (∃ seen, verifyTermScope table node depth = .ok seen) ↔ bound ≤ depth := by
  rw [verifyTermScope_iff_bound ordered h at_node, and_iff_left_iff_imp]
  intro bounded place binders occurs at_place
  have enough := (bound_le_iff ordered h node at_node depth.toNat).mp
    (UInt32.le_iff_toNat_le.mp bounded) place binders occurs u32Max at_place
  have earlier := occurs.binders_le ordered
  have inside := (List.getElem?_eq_some_iff.mp at_node).1
  rw [run_length h, List.length_nil, Nat.zero_add] at inside
  have value : u32Max.toNat = 2 ^ 32 - 1 := rfl
  omega

end Table

/-! ### The tables of a certificate -/

/-- `mark_term_reachable`. An index outside of the table would panic; the bounds were computed
    before, so there is none. -/
def termSearch (table : List TermNode) : Worklist Nat CertError where
  expand node := do
    let node ← Result.okOr table[node]? .decodeError
    .ok node.children
  finite := (Set.finite_lt_nat table.length).subset fun _ ⟨_, expands⟩ => lt_of_okOr expands

/-- `collect_level_reachable`. -/
def levelSearch (table : List LevelNode) : Worklist Nat CertError where
  expand node := do
    let node ← Result.okOr table[node]? .decodeError
    .ok node.children
  finite := (Set.finite_lt_nat table.length).subset fun _ ⟨_, expands⟩ => lt_of_okOr expands

/-- `inductive_export_type_term_id`: the type of an inductive, looked up in the table. -/
def inductiveExportTypeTermId (table : List TermNode) (params indices : List BinderType)
    (sort : Id) : CertResult Nat := do
  let body ← Result.okOr (table.findIdx? (· = .sort sort)) .decodeError
  Result.foldEach (params ++ indices).reverse body fun body binder =>
    Result.okOr (table.findIdx? fun
      | .pi ty piBody => ty = binder.ty && piBody.toNat = body
      | _ => false) .decodeError

def inductiveScopeRoots (table : List TermNode) (params indices : List BinderType) (sort : Id)
    (constructors : List ConstructorSpec) (recursor : Option RecursorSpec) :
    List (CertResult Nat) :=
  inductiveExportTypeTermId table params indices sort ::
    constructors.map (fun constructor => .ok constructor.ty.toNat) ++
    recursor.toList.map (fun recursor => .ok recursor.ty.toNat)

/-- The roots that are checked for a declaration, each looked up when its turn comes. -/
def declScopeRoots (table : List TermNode) : DeclPayload → List (CertResult Nat)
  | .axiomDecl _ _ ty | .axiomConstrained _ _ _ ty => [.ok ty.toNat]
  | .defDecl _ _ ty value _ | .defConstrained _ _ _ ty value _ => [.ok ty.toNat, .ok value.toNat]
  | .theoremDecl _ _ ty proof _ | .theoremConstrained _ _ _ ty proof _ =>
    [.ok ty.toNat, .ok proof.toNat]
  | .inductiveDecl _ _ params indices sort constructors recursor
  | .inductiveConstrained _ _ _ params indices sort constructors recursor =>
    inductiveScopeRoots table params indices sort constructors recursor
  | .mutualInductiveBlock _ _ _ inductives => inductives.flatMap fun member =>
    inductiveScopeRoots table member.params member.indices member.sort member.constructors
      member.recursor

def ModuleCert.scopeRoots (cert : ModuleCert) : List (CertResult Nat) :=
  cert.declarations.flatMap fun declaration => declScopeRoots cert.termTable declaration.decl

/-- `verify_root`, with the terms that are known to be reachable. -/
def verifyRoot (cert : ModuleCert) (bounds : List UInt32) (reachable : List Nat)
    (root : CertResult Nat) : CertResult (List Nat) := do
  let root ← root
  Result.ensure (root < cert.termTable.length) .decodeError
  let bound ← Result.okOr bounds[root]? .decodeError
  if 0 < bound then
    let _ ← verifyTermScope cert.termTable root 0
    (termSearch cert.termTable).close [root] reachable
  else (termSearch cert.termTable).close [root] reachable

/-- The levels from which `collect_level_reachable` starts. -/
def ModuleCert.levelRoots (cert : ModuleCert) : List Id :=
  cert.termTable.flatMap TermNode.levels ++
    cert.declarations.flatMap (fun declaration =>
      (declConstraints declaration.decl).flatMap fun constraint =>
        [constraint.lhs, constraint.rhs]) ++
    cert.exportBlock.flatMap fun entry =>
      entry.universeConstraints.flatMap fun constraint => [constraint.lhs, constraint.rhs]

/-- `reachable.iter().filter(|seen| **seen).count() == len`. -/
def allReached (len : Nat) (reachable : List Nat) : Bool :=
  ((List.range len).filter fun index => reachable.contains index).length = len

def verifyReachableTablesAndBvars (cert : ModuleCert) : CertResult Unit := do
  let bounds ← termNodeLooseBvarBounds cert.termTable
  let terms ← Result.foldEach cert.scopeRoots [] (verifyRoot cert bounds)
  Result.ensure (allReached cert.termTable.length terms) (.nonCanonicalEncoding "TermTable")
  let levels ← Result.foldEach cert.levelRoots [] fun reachable root =>
    (levelSearch cert.levelTable).close [root.toNat] reachable
  Result.ensure (allReached cert.levelTable.length levels) (.nonCanonicalEncoding "LevelTable")

/-- A level refers to another over any number of nodes. -/
def LevelBelow (table : List LevelNode) : Nat → Nat → Prop :=
  Relation.ReflTransGen fun node child =>
    ∃ entry, table[node]? = some entry ∧ child ∈ entry.children

/-- No variable below the root is loose. -/
def ClosedTerm (table : List TermNode) (root : Nat) : Prop := BoundWithin table root 0

/-- Every term is below a root of a declaration and closed there, and every level is below one
    that is used. -/
structure ModuleCert.WellScoped (cert : ModuleCert) : Prop where
  closed : ∀ root, .ok root ∈ cert.scopeRoots → ClosedTerm cert.termTable root
  terms : ∀ node, node < cert.termTable.length →
    ∃ root, .ok root ∈ cert.scopeRoots ∧ ∃ binders, Occurs cert.termTable root node binders
  levels : ∀ node, node < cert.levelTable.length →
    ∃ root ∈ cert.levelRoots, LevelBelow cert.levelTable root.toNat node

theorem mem_of_allReached {len : Nat} {reachable : List Nat} (h : allReached len reachable = true)
    {index : Nat} (inside : index < len) : index ∈ reachable := by
  have all : (List.range len).filter (fun index => reachable.contains index) = List.range len := by
    apply List.filter_sublist.eq_of_length
    simpa [allReached] using h
  have mem : index ∈ (List.range len).filter (fun index => reachable.contains index) := by
    rw [all]
    exact List.mem_range.mpr inside
  simpa using (List.mem_filter.mp mem).2

theorem termSearch_reaches {table : List TermNode} {root node : Nat}
    (reaches : (termSearch table).Reaches root node) : ∃ binders, Occurs table root node binders := by
  induction reaches using Relation.ReflTransGen.head_induction_on with
  | refl => exact ⟨0, .here _⟩
  | head leads _ ih =>
    obtain ⟨next, expands, mem⟩ := leads
    obtain ⟨entry, at_node, h⟩ := bind_eq_ok.mp expands
    cases h
    obtain ⟨binders, occurs⟩ := ih
    obtain ⟨extra, part⟩ := exists_scoped mem
    exact ⟨binders + extra, .under (okOr_eq_ok.mp at_node) part occurs⟩

theorem levelSearch_reaches {table : List LevelNode} {root node : Nat}
    (reaches : (levelSearch table).Reaches root node) : LevelBelow table root node := by
  refine Relation.ReflTransGen.mono (fun parent child leads => ?_) _ _ reaches
  obtain ⟨next, expands, mem⟩ := leads
  obtain ⟨entry, at_node, h⟩ := bind_eq_ok.mp expands
  cases h
  exact ⟨entry, okOr_eq_ok.mp at_node, mem⟩

section Certificate

variable {cert : ModuleCert} {bounds : List UInt32} {reachable final : List Nat}

theorem verifyRoot_eq_ok {root : CertResult Nat}
    (h : verifyRoot cert bounds reachable root = .ok final) :
    ∃ node bound, root = .ok node ∧ bounds[node]? = some bound ∧
      (0 < bound → ∃ seen, verifyTermScope cert.termTable node 0 = .ok seen) ∧
      (termSearch cert.termTable).close [node] reachable = .ok final := by
  obtain ⟨node, at_root, h⟩ := bind_eq_ok.mp h
  obtain ⟨_, _, h⟩ := bind_eq_ok.mp h
  obtain ⟨bound, at_bound, h⟩ := bind_eq_ok.mp h
  rw [okOr_eq_ok] at at_bound
  split at h
  next positive =>
    obtain ⟨seen, scope, h⟩ := bind_eq_ok.mp h
    exact ⟨node, bound, at_root, at_bound, fun _ => ⟨seen, scope⟩, h⟩
  next zero => exact ⟨node, bound, at_root, at_bound, fun positive => absurd positive zero, h⟩

/-- A root that passes is closed: the search is only run to fail. -/
theorem closed_of_verifyRoot (small : cert.termTable.length < 2 ^ 32)
    (computed : termNodeLooseBvarBounds cert.termTable = .ok bounds) {root : Nat}
    (h : verifyRoot cert bounds reachable (.ok root) = .ok final) :
    ClosedTerm cert.termTable root := by
  obtain ⟨node, bound, same, at_bound, scope, _⟩ := verifyRoot_eq_ok h
  cases same
  have ordered := termNodeLooseBvarBounds_isOk_iff.mp ⟨bounds, computed⟩
  have exact_bound : (∃ seen, verifyTermScope cert.termTable root 0 = .ok seen) ↔ bound ≤ 0 :=
    verifyTermScope_iff_le ordered computed at_bound (by simpa using small)
  have accepted : ∃ seen, verifyTermScope cert.termTable root 0 = .ok seen := by
    by_cases positive : 0 < bound
    · exact scope positive
    · exact exact_bound.mpr (UInt32.not_lt.mp positive)
  have inside := (List.getElem?_eq_some_iff.mp at_bound).1
  rw [run_length computed, List.length_nil, Nat.zero_add] at inside
  intro place binders index occurs at_place
  have below := (verifyTermScope_isOk_iff ordered inside 0).mp accepted place binders occurs index
    at_place
  rw [UInt32.toNat_zero] at below
  omega

/-- The terms found so far are below roots. -/
def FoundTerms (cert : ModuleCert) (reachable : List Nat) : Prop :=
  (termSearch cert.termTable).Closed reachable ∧ ∀ node ∈ reachable,
    ∃ root, .ok root ∈ cert.scopeRoots ∧ ∃ binders, Occurs cert.termTable root node binders

theorem foundTerms_verifyRoot {root : CertResult Nat} (mem : root ∈ cert.scopeRoots)
    (h : verifyRoot cert bounds reachable root = .ok final)
    (found : FoundTerms cert reachable) : FoundTerms cert final := by
  obtain ⟨node, _, rfl, _, _, marked⟩ := verifyRoot_eq_ok h
  refine ⟨Worklist.closed_close found.1 marked, fun place at_place => ?_⟩
  rcases (Worklist.mem_close_iff found.1 marked place).mp at_place with old | ⟨start, at_start, new⟩
  · exact found.2 place old
  · obtain rfl := List.mem_singleton.mp at_start
    exact ⟨start, mem, termSearch_reaches new⟩

/-- The levels found so far are below levels that are used. -/
def FoundLevels (cert : ModuleCert) (reachable : List Nat) : Prop :=
  (levelSearch cert.levelTable).Closed reachable ∧ ∀ node ∈ reachable,
    ∃ root ∈ cert.levelRoots, LevelBelow cert.levelTable root.toNat node

theorem foundLevels_close {root : Id} (mem : root ∈ cert.levelRoots)
    (h : (levelSearch cert.levelTable).close [root.toNat] reachable = .ok final)
    (found : FoundLevels cert reachable) : FoundLevels cert final := by
  refine ⟨Worklist.closed_close found.1 h, fun place at_place => ?_⟩
  rcases (Worklist.mem_close_iff found.1 h place).mp at_place with old | ⟨start, at_start, new⟩
  · exact found.2 place old
  · obtain rfl := List.mem_singleton.mp at_start
    exact ⟨root, mem, levelSearch_reaches new⟩

theorem verifyReachableTablesAndBvars_sound (small : cert.termTable.length < 2 ^ 32)
    (accepted : verifyReachableTablesAndBvars cert = .ok ()) : cert.WellScoped := by
  obtain ⟨bounds, computed, h⟩ := bind_eq_ok.mp accepted
  obtain ⟨terms, at_terms, h⟩ := bind_eq_ok.mp h
  obtain ⟨_, allTerms, h⟩ := bind_eq_ok.mp h
  obtain ⟨levels, at_levels, allLevels⟩ := bind_eq_ok.mp h
  rw [ensure_eq_ok] at allTerms allLevels
  have noTerms : FoundTerms cert [] := ⟨Worklist.closed_nil, nofun⟩
  have noLevels : FoundLevels cert [] := ⟨Worklist.closed_nil, nofun⟩
  refine ⟨fun root mem => ?_, fun node inside => ?_, fun node inside => ?_⟩
  · obtain ⟨before, after, _, passed⟩ := foldEach_step _
      (fun root mem s t h => foundTerms_verifyRoot mem h) at_terms noTerms mem
    exact closed_of_verifyRoot small computed passed
  · have found := foldEach_preserves _ (fun root mem s t h => foundTerms_verifyRoot mem h)
      at_terms noTerms
    exact found.2 node (mem_of_allReached allTerms inside)
  · have found := foldEach_preserves _ (fun root mem s t h => foundLevels_close mem h)
      at_levels noLevels
    exact found.2 node (mem_of_allReached allLevels inside)

end Certificate

/-! ### The fast path against the search -/

/-- On every ordered table the pass succeeds; the search accepts a node at a depth exactly when
    the bound is at most the depth and the variable with the largest number is not below the
    node; and below `2 ^ 32` the variable makes no difference. A certificate that is accepted
    has no loose variable and no unused node. -/
theorem looseBvarBounds_exact :
    (∀ table, Ordered TermNode.children table →
      ∃ bounds, termNodeLooseBvarBounds table = .ok bounds ∧ bounds.length = table.length ∧
        ∀ (node : Nat) bound, bounds[node]? = some bound → ∀ depth : UInt32,
          ((∃ seen, verifyTermScope table node depth = .ok seen) ↔
            bound ≤ depth ∧ ∀ place binders, Occurs table node place binders →
              table[place]? ≠ some (.bvar u32Max)) ∧
          (depth.toNat + table.length < 2 ^ 32 →
            ((∃ seen, verifyTermScope table node depth = .ok seen) ↔ bound ≤ depth))) ∧
    ∀ cert, cert.termTable.length < 2 ^ 32 → verifyReachableTablesAndBvars cert = .ok () →
      cert.WellScoped := by
  refine ⟨fun table ordered => ?_, fun cert => verifyReachableTablesAndBvars_sound⟩
  obtain ⟨bounds, computed⟩ := termNodeLooseBvarBounds_isOk_iff.mpr ordered
  refine ⟨bounds, computed, by simpa using run_length computed, ?_⟩
  intro node bound at_node depth
  exact ⟨verifyTermScope_iff_bound ordered computed at_node depth,
    verifyTermScope_iff_le ordered computed at_node⟩

/-- `λ _ : x₀, x₀`, whose bound is that of the domain. -/
def lambdaTable : List TermNode := [.bvar 0, .lam 0 0]

/-- An axiom of type `Prop`. -/
def axiomModule : ModuleCert :=
  { emptyModuleCert ⟨["Std"]⟩ with
    nameTable := [⟨["A"]⟩]
    levelTable := [.zero]
    termTable := [.sort 0]
    declarations :=
      [⟨.axiomDecl 0 [] 0, [], [], ⟨.replicate 32 0, .replicate 32 0⟩⟩] }

theorem axiomModule_accepted : verifyReachableTablesAndBvars axiomModule = .ok () := by
  have terms : (termSearch axiomModule.termTable).close [0] [] = .ok [0] := by
    have sort : (termSearch axiomModule.termTable).expand 0 = .ok [] := rfl
    rw [Worklist.close_new _ List.not_mem_nil sort]
    exact Worklist.close_nil _ _
  have levels : (levelSearch axiomModule.levelTable).close [0] [] = .ok [0] := by
    have zero : (levelSearch axiomModule.levelTable).expand 0 = .ok [] := rfl
    rw [Worklist.close_new _ List.not_mem_nil zero]
    exact Worklist.close_nil _ _
  have bounds : termNodeLooseBvarBounds axiomModule.termTable = .ok [0] := rfl
  have root : verifyRoot axiomModule [0] [] (.ok 0) = .ok [0] := terms
  have roots : Result.foldEach axiomModule.scopeRoots [] (verifyRoot axiomModule [0]) = .ok [0] := by
    change (verifyRoot axiomModule [0] [] (.ok 0) >>= fun next => .ok next) = .ok [0]
    rw [root]
    rfl
  have levelRoots : Result.foldEach axiomModule.levelRoots [] (fun reachable root =>
      (levelSearch axiomModule.levelTable).close [root.toNat] reachable) = .ok [0] := by
    change ((levelSearch axiomModule.levelTable).close [0] [] >>= fun next => .ok next) = .ok [0]
    rw [levels]
    rfl
  rw [verifyReachableTablesAndBvars, bounds, ok_bind, roots, ok_bind]
  change ((Result.foldEach axiomModule.levelRoots [] fun reachable root =>
    (levelSearch axiomModule.levelTable).close [root.toNat] reachable) >>= _) = _
  rw [levelRoots]
  rfl

theorem looseBvarBounds_exact_at_lambda :
    (∃ bounds, termNodeLooseBvarBounds lambdaTable = .ok bounds ∧ bounds.length = 2) ∧
      axiomModule.WellScoped := by
  obtain ⟨tables, certs⟩ := looseBvarBounds_exact
  have ordered : Ordered TermNode.children lambdaTable :=
    termNodeLooseBvarBounds_isOk_iff.mp ⟨[1, 1], rfl⟩
  obtain ⟨bounds, computed, length, _⟩ := tables lambdaTable ordered
  exact ⟨⟨bounds, computed, length⟩, certs axiomModule (by decide) axiomModule_accepted⟩

/-- The variable with the largest number has a bound that is too small by one, which shows at
    the largest depth. -/
theorem looseBvarBound_saturates :
    ¬ ∀ table, Ordered TermNode.children table →
      ∀ bounds, termNodeLooseBvarBounds table = .ok bounds →
        ∀ (node : Nat) bound, bounds[node]? = some bound → ∀ depth : UInt32,
          ((∃ seen, verifyTermScope table node depth = .ok seen) ↔ bound ≤ depth) := by
  intro all
  have computed : termNodeLooseBvarBounds [.bvar u32Max] = .ok [u32Max] := rfl
  have ordered := termNodeLooseBvarBounds_isOk_iff.mp ⟨_, computed⟩
  have accepted := (all _ ordered _ computed 0 u32Max rfl u32Max).mpr (UInt32.le_refl _)
  exact ((verifyTermScope_iff_bound ordered computed rfl u32Max).mp accepted).2 0 0 (.here 0) rfl

end NpaCore.Wire
