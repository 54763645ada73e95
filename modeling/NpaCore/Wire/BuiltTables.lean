import Mathlib.Data.String.Basic
import NpaCore.Lib.Sorted
import NpaCore.Wire.Collector

/-!
# The tables of a build

`build_tables` of `npa-cert/src/canonical.rs` sorts the collected levels and terms by height and
key and writes every node with the places of its children. Where SHA-256 has no collisions the
tables store each level and each term of the declarations once, whatever was collected first,
and the checks that the verifier makes on their order accept them.

## Main result

`builtTables_faithful`.
-/

namespace NpaCore.Wire

open NpaCore.Result NpaCore.PointerMemo NpaCore.ForwardPass NpaCore.Exploration

/-! ### Sorting and places -/

section Places

variable {N K : Type}

/-- The comparison of the sort: heights, then keys. -/
def CollectedNode.cmp : CollectedNode N → CollectedNode N → Ordering :=
  compareLex (compareOn CollectedNode.height) (compareOn CollectedNode.key)

instance : Std.TransCmp (CollectedNode.cmp (N := N)) :=
  inferInstanceAs
    (Std.TransCmp (compareLex (compareOn CollectedNode.height) (compareOn CollectedNode.key)))

/-- `level_ids[&hash]` and `term_ids[&hash]`: the place of the entry. A missing entry would stop
    the program; none is missing. -/
def nodeId (nodes : List (CollectedNode N)) (hash : Hash) : CertResult Id :=
  Result.okOr ((nodes.findIdx? fun entry => entry.hash == hash).map UInt64.ofNat) .decodeError

/-- The sorted entries of what was collected. -/
structure Arranged (describes : CollectedNode N → Prop) (view : N → K) (all : Set K)
    (entries : List (CollectedNode N)) : Prop where
  described : ∀ entry ∈ entries, describes entry
  nodup : (entries.map (·.hash)).Nodup
  increasing : entries.Pairwise fun a b => a.cmp b = .lt
  nodes : ∀ k, k ∈ all ↔ ∃ entry ∈ entries, view entry.node = k

variable {describes : CollectedNode N → Prop} {view : N → K} {all : Set K}
  {entries : List (CollectedNode N)}

theorem Arranged.nodeId_eq (arranged : Arranged describes view all entries) {i : Nat}
    {entry : CollectedNode N} (at_i : entries[i]? = some entry) :
    nodeId entries entry.hash = .ok (UInt64.ofNat i) := by
  have found : entries.findIdx? (fun other => other.hash == entry.hash) = some i := by
    rw [List.findIdx?_eq_some_iff_getElem]
    obtain ⟨bound, same⟩ := List.getElem?_eq_some_iff.mp at_i
    refine ⟨bound, by simp [same], ?_⟩
    intro j earlier
    have inside : j < entries.length := by omega
    have different : (entries.map (·.hash))[j]? ≠ (entries.map (·.hash))[i]? := by
      intro equal
      have index := (List.getElem?_inj (by simpa using inside) arranged.nodup).mp equal
      omega
    simpa [inside, bound, same] using different
  rw [nodeId, found]
  rfl

/-- A lower entry stands before a higher one. -/
theorem Arranged.place_lt (arranged : Arranged describes view all entries) {i j : Nat}
    {lower higher : CollectedNode N} (at_i : entries[i]? = some lower)
    (at_j : entries[j]? = some higher) (below : lower.height < higher.height) : i < j := by
  obtain ⟨i_bound, same⟩ := List.getElem?_eq_some_iff.mp at_i
  obtain ⟨j_bound, same'⟩ := List.getElem?_eq_some_iff.mp at_j
  by_contra not_before
  rcases Nat.lt_or_ge j i with before | equal
  · have order := List.pairwise_iff_getElem.mp arranged.increasing j i j_bound i_bound before
    rw [same, same'] at order
    have first : compare higher.height lower.height = .gt := Nat.compare_eq_gt.mpr below
    simp [CollectedNode.cmp, compareLex, compareOn, first] at order
  · have index : i = j := by omega
    subst index
    rw [at_i] at at_j
    cases at_j
    omega

/-- The id of a node: the place of its entry. -/
def HasId (view : N → K) (entries : List (CollectedNode N)) (k : K) (id : Id) : Prop :=
  ∃ i entry, entries[i]? = some entry ∧ view entry.node = k ∧ id = .ofNat i

/-- No more entries than there may be places of a vector. -/
theorem HasId.place (fits : entries.length ≤ usizeMax) {k : K} {id : Id}
    (hasId : HasId view entries k id) :
    ∃ entry, entries[id.toNat]? = some entry ∧ view entry.node = k := by
  obtain ⟨i, entry, at_i, same, rfl⟩ := hasId
  have bound := (List.getElem?_eq_some_iff.mp at_i).1
  have place : (UInt64.ofNat i).toNat = i := by
    apply Decoder.ofNat_toNat_of_lt
    rw [usizeMax] at fits
    omega
  exact ⟨entry, by rw [place, at_i], same⟩

/-- One id is the id of one node. -/
theorem HasId.inj (fits : entries.length ≤ usizeMax) {k k' : K} {id : Id}
    (left : HasId view entries k id) (right : HasId view entries k' id) : k = k' := by
  obtain ⟨entry, at_id, rfl⟩ := left.place fits
  obtain ⟨entry', at_id', rfl⟩ := right.place fits
  rw [at_id] at at_id'
  cases at_id'
  rfl

theorem Arranged.place_unique (arranged : Arranged describes view all entries)
    (hashed : ∀ a b, describes a → describes b → view a.node = view b.node → a.hash = b.hash)
    {i j : Nat} {a b : CollectedNode N} (at_i : entries[i]? = some a) (at_j : entries[j]? = some b)
    (same : view a.node = view b.node) : i = j := by
  have hashes := hashed a b (arranged.described a (List.mem_of_getElem? at_i))
    (arranged.described b (List.mem_of_getElem? at_j)) same
  have bound := (List.getElem?_eq_some_iff.mp at_i).1
  apply (List.getElem?_inj (by simpa using bound) arranged.nodup).mp
  rw [List.getElem?_map, List.getElem?_map, at_i, at_j, Option.map_some, Option.map_some, hashes]

end Places

/-! ### Building -/

section Build

variable (sha256 : Bytes → Hash) (names : List Name)

/-- `CanonNodeIds::level_id`. -/
def levelId (levels : List (CollectedNode CanonLevel)) (level : CanonLevel) : CertResult Id := do
  let hash ← canonLevelHash sha256 names level
  nodeId levels hash

structure CanonNodeIds where
  levels : List (CollectedNode CanonLevel)
  terms : List (CollectedNode CanonTerm)
  termMemo : TermHashMemo

/-- `CanonNodeIds::term_id`. -/
def CanonNodeIds.termId (nodeIds : CanonNodeIds) (term : CanonTerm) :
    CertResult (Id × TermHashMemo) := do
  let (found, memo) ← canonTermHeightAndKey sha256 names term nodeIds.termMemo
  let id ← nodeId nodeIds.terms (termHash sha256 found.2)
  .ok (id, memo)

structure CanonBuiltTables where
  levelTable : List LevelNode
  levelHashes : List Hash
  termTable : List TermNode
  termHashes : List Hash
  nodeIds : CanonNodeIds

variable {sha256 names}

end Build

/-! ### The level table -/

variable {level : CanonLevel}

section Levels

variable {sha256 : Bytes → Hash} {names : List Name} {scope : Set CanonLevel}
  {terms : Set CanonTerm} {entries : List (CollectedNode CanonLevel)}

/-- The node says what the level is made of, by the places of its children. -/
inductive LevelNodeFor (entries : List (CollectedNode CanonLevel)) : CanonLevel → LevelNode → Prop
  | zero : LevelNodeFor entries .zero .zero
  | succ {inner : CanonLevel} {id : Id} :
    HasId (·) entries inner id → LevelNodeFor entries (.succ inner) (.succ id)
  | max {lhs rhs : CanonLevel} {left right : Id} :
    HasId (·) entries lhs left → HasId (·) entries rhs right →
    LevelNodeFor entries (.max lhs rhs) (.max left right)
  | imax {lhs rhs : CanonLevel} {left right : Id} :
    HasId (·) entries lhs left → HasId (·) entries rhs right →
    LevelNodeFor entries (.imax lhs rhs) (.imax left right)
  | param (name : Id) : LevelNodeFor entries (.param name) (.param name)

variable (sha256 names scope) in
/-- The sorted levels. -/
abbrev ArrangedLevels (entries : List (CollectedNode CanonLevel)) : Prop :=
  Arranged (DescribesLevel sha256 names scope) (·) scope entries

/-- Every level of the scope has its id. -/
theorem levelId_eq (levels : ArrangedLevels sha256 names scope entries) (here : level ∈ scope) :
    ∃ id, levelId sha256 names entries level = .ok id ∧ HasId (·) entries level id := by
  obtain ⟨entry, mem, same⟩ := (levels.nodes level).mp here
  obtain ⟨i, at_i⟩ := List.mem_iff_getElem?.mp mem
  have hash_ok := (levels.described entry mem).hash_ok
  rw [same] at hash_ok
  exact ⟨.ofNat i, by rw [levelId, hash_ok, ok_bind, levels.nodeId_eq at_i],
    i, entry, at_i, same, rfl⟩

/-- The nodes of the table belong to the sorted levels. -/
abbrev LevelTableFor (entries : List (CollectedNode CanonLevel)) (table : List LevelNode) : Prop :=
  List.Forall₂ (fun entry node => LevelNodeFor entries entry.node node) entries table

theorem canonLevelHeight_child {level child : CanonLevel} (mem : child ∈ level.children) :
    canonLevelHeight child < canonLevelHeight level := by
  cases level with
  | zero | param name => cases mem
  | succ inner =>
    obtain rfl := List.mem_singleton.mp mem
    rw [canonLevelHeight.eq_def (.succ _)]
    exact Nat.lt_succ_self _
  | max lhs rhs | imax lhs rhs =>
    simp only [CanonLevel.children, List.mem_cons, List.not_mem_nil, or_false] at mem
    rcases mem with rfl | rfl <;> simp only [canonLevelHeight] <;> omega

/-- What a pass finds at the id of a child: the value of its entry, which stands before. -/
theorem level_child (levels : ArrangedLevels sha256 names scope entries)
    (fits : entries.length ≤ usizeMax) {i : Nat} {entry : CollectedNode CanonLevel}
    (at_i : entries[i]? = some entry) {child : CanonLevel} (mem : child ∈ entry.node.children)
    {id : Id} (hasId : HasId (·) entries child id) :
    ∃ below ∈ entries, below.node = child ∧ id.toNat < i ∧
      ∀ {V : Type} (value : CollectedNode CanonLevel → V),
        checkedChild ((entries.map value).take i) id = .ok (value below) := by
  obtain ⟨below, at_id, same⟩ := hasId.place fits
  have here := List.mem_of_getElem? at_id
  have lower : below.height < entry.height := by
    rw [(levels.described below here).height,
      (levels.described entry (List.mem_of_getElem? at_i)).height, same]
    exact canonLevelHeight_child mem
  have before := levels.place_lt at_id at_i lower
  refine ⟨below, here, same, before, fun value => ?_⟩
  rw [checkedChild_eq_ok, List.getElem?_take, if_pos before, List.getElem?_map, at_id,
    Option.map_some]

variable {i : Nat} {entry : CollectedNode CanonLevel} {node : LevelNode}

theorem levelNode_children (levels : ArrangedLevels sha256 names scope entries)
    (fits : entries.length ≤ usizeMax) (at_i : entries[i]? = some entry)
    (nodeFor : LevelNodeFor entries entry.node node) : ∀ child ∈ node.children, child < i := by
  have place : ∀ {child : CanonLevel} {id : Id}, child ∈ entry.node.children →
      HasId (·) entries child id → id.toNat < i := by
    intro child id mem hasId
    obtain ⟨_, _, _, before, _⟩ := level_child levels fits at_i mem hasId
    exact before
  generalize level_eq : entry.node = level at nodeFor place
  cases nodeFor with
  | zero | param => simp [LevelNode.children, LevelNode.levels]
  | succ inner =>
    have before := place (by simp [CanonLevel.children]) inner
    simpa [LevelNode.children, LevelNode.levels] using before
  | max left right | imax left right =>
    simp only [LevelNode.children, LevelNode.levels, List.map_cons, List.map_nil, List.mem_cons,
      List.not_mem_nil, or_false, forall_eq_or_imp, forall_eq]
    exact ⟨place (by simp [CanonLevel.children]) left, place (by simp [CanonLevel.children]) right⟩

/-- The tree that the node unfolds to is the level of its entry. -/
theorem levelNode_unfold (levels : ArrangedLevels sha256 names scope entries)
    (fits : entries.length ≤ usizeMax) (at_i : entries[i]? = some entry)
    (nodeFor : LevelNodeFor entries entry.node node) :
    unfoldLevelNode ((entries.map (·.node)).take i) node = .ok entry.node := by
  have found : ∀ {child : CanonLevel} {id : Id}, child ∈ entry.node.children →
      HasId (·) entries child id →
        checkedChild ((entries.map (·.node)).take i) id = .ok child := by
    intro child id mem hasId
    obtain ⟨below, _, same, _, value⟩ := level_child levels fits at_i mem hasId
    rw [value, same]
  generalize level_eq : entry.node = level at nodeFor found
  cases nodeFor with
  | zero | param => rfl
  | succ inner =>
    rw [unfoldLevelNode, found (by simp [CanonLevel.children]) inner, ok_bind]
  | max left right | imax left right =>
    rw [unfoldLevelNode, found (by simp [CanonLevel.children]) left, ok_bind,
      found (by simp [CanonLevel.children]) right, ok_bind]

/-- The key that the verifier computes is the one that the builder sorted by. -/
theorem levelNode_key (levels : ArrangedLevels sha256 names scope entries)
    (fits : entries.length ≤ usizeMax) (at_i : entries[i]? = some entry)
    (nodeFor : LevelNodeFor entries entry.node node) :
    levelNodeKey names ((entries.map (·.hash)).take i) node = .ok entry.key := by
  have key_ok := (levels.described entry (List.mem_of_getElem? at_i)).key
  have found : ∀ {child : CanonLevel} {id : Id}, child ∈ entry.node.children →
      HasId (·) entries child id → ∃ key, canonLevelKey sha256 names child = .ok key ∧
        checkedChild ((entries.map (·.hash)).take i) id = .ok (levelHash sha256 key) := by
    intro child id mem hasId
    obtain ⟨below, here, same, _, value⟩ := level_child levels fits at_i mem hasId
    have described := levels.described below here
    exact ⟨below.key, same ▸ described.key, by rw [value, described.hash]⟩
  generalize level_eq : entry.node = level at nodeFor found key_ok
  cases nodeFor with
  | zero =>
    rw [canonLevelKey] at key_ok
    exact key_ok
  | param name =>
    rw [canonLevelKey] at key_ok
    exact key_ok
  | succ inner =>
    obtain ⟨below, below_ok, hash⟩ := found (by simp [CanonLevel.children]) inner
    rw [canonLevelKey, below_ok, ok_bind] at key_ok
    rw [levelNodeKey, hash, ok_bind]
    exact key_ok
  | max left right | imax left right =>
    obtain ⟨lhs, lhs_ok, lhsHash⟩ := found (by simp [CanonLevel.children]) left
    obtain ⟨rhs, rhs_ok, rhsHash⟩ := found (by simp [CanonLevel.children]) right
    rw [canonLevelKey, lhs_ok, ok_bind, rhs_ok, ok_bind] at key_ok
    rw [levelNodeKey, lhsHash, ok_bind, rhsHash, ok_bind]
    exact key_ok

theorem levelNode_height (levels : ArrangedLevels sha256 names scope entries)
    (fits : entries.length ≤ usizeMax) (at_i : entries[i]? = some entry)
    (nodeFor : LevelNodeFor entries entry.node node) :
    legacyLevelHeight ((entries.map (·.height)).take i) node = .ok entry.height := by
  have height := (levels.described entry (List.mem_of_getElem? at_i)).height
  have found : ∀ {child : CanonLevel} {id : Id}, child ∈ entry.node.children →
      HasId (·) entries child id →
        checkedChild ((entries.map (·.height)).take i) id = .ok (canonLevelHeight child) := by
    intro child id mem hasId
    obtain ⟨below, here, same, _, value⟩ := level_child levels fits at_i mem hasId
    rw [value, (levels.described below here).height, same]
  rw [height]
  generalize level_eq : entry.node = level at nodeFor found
  cases nodeFor with
  | zero | param => rfl
  | succ inner =>
    rw [legacyLevelHeight, found (by simp [CanonLevel.children]) inner, ok_bind, canonLevelHeight]
  | max left right | imax left right =>
    rw [legacyLevelHeight, found (by simp [CanonLevel.children]) left, ok_bind,
      found (by simp [CanonLevel.children]) right, ok_bind, canonLevelHeight]

end Levels

/-! ### The term table -/

section Terms

variable {sha256 : Bytes → Hash} {names : List Name} {heap : Nat → Option CanonTerm}
  {scope : Set CanonLevel} {exprs : Set TableExpr} {levelEntries : List (CollectedNode CanonLevel)}
  {entries : List (CollectedNode CanonTerm)}

/-- The node says what the term is made of, by the places of its levels and parts. -/
inductive TermNodeFor (levelEntries : List (CollectedNode CanonLevel))
    (entries : List (CollectedNode CanonTerm)) : TableExpr → TermNode → Prop
  | sort {level : CanonLevel} {id : Id} : HasId (·) levelEntries level id →
    TermNodeFor levelEntries entries (.sort level) (.sort id)
  | bvar (index : UInt32) : TermNodeFor levelEntries entries (.bvar index.toNat) (.bvar index)
  | const {globalRef : GlobalRef} {args : List CanonLevel} {ids : List Id} :
    List.Forall₂ (HasId (·) levelEntries) args ids →
    TermNodeFor levelEntries entries (.const globalRef args) (.const globalRef ids)
  | app {fn arg : TableExpr} {left right : Id} : HasId CanonTerm.expr entries fn left →
    HasId CanonTerm.expr entries arg right →
    TermNodeFor levelEntries entries (.app fn arg) (.app left right)
  | lam {ty body : TableExpr} {left right : Id} : HasId CanonTerm.expr entries ty left →
    HasId CanonTerm.expr entries body right →
    TermNodeFor levelEntries entries (.lam () ty body) (.lam left right)
  | pi {ty body : TableExpr} {left right : Id} : HasId CanonTerm.expr entries ty left →
    HasId CanonTerm.expr entries body right →
    TermNodeFor levelEntries entries (.pi () ty body) (.pi left right)

variable (sha256 names heap exprs) in
/-- The sorted terms. -/
abbrev ArrangedTerms (entries : List (CollectedNode CanonTerm)) : Prop :=
  Arranged (DescribesTerm sha256 names heap exprs) CanonTerm.expr exprs entries

/-- Every term of the scope has its id, under the hash that any of its copies has. -/
theorem nodeId_term (arranged : ArrangedTerms sha256 names heap exprs entries) {term : CanonTerm}
    (here : term.expr ∈ exprs) :
    ∃ key id, canonTermKey sha256 names term = .ok key ∧
      nodeId entries (termHash sha256 key.2) = .ok id ∧ HasId CanonTerm.expr entries term.expr id := by
  obtain ⟨entry, mem, same⟩ := (arranged.nodes term.expr).mp here
  obtain ⟨i, at_i⟩ := List.mem_iff_getElem?.mp mem
  have described := arranged.described entry mem
  refine ⟨(entry.height, entry.key), .ofNat i, ?_, ?_, i, entry, at_i, same, rfl⟩
  · rw [← described.key]
    exact canonTermKey_congr same.symm
  · rw [← described.hash]
    exact arranged.nodeId_eq at_i

variable (sha256 names heap) in
/-- What is kept of the memo. -/
abbrev KeptMemo (memo : TermHashMemo) : Prop :=
  Kept (termRecursion sha256 names) heap (canonTermKey sha256 names) memo

/-- The nodes of the table belong to the sorted terms. -/
abbrev TermTableFor (levelEntries : List (CollectedNode CanonLevel))
    (entries all : List (CollectedNode CanonTerm)) (table : List TermNode) : Prop :=
  List.Forall₂ (fun entry node => TermNodeFor levelEntries all entry.node.expr node) entries table

theorem canonTermKey_part_lt {term : CanonTerm} {found : Nat × Bytes}
    (key_ok : canonTermKey sha256 names term = .ok found) {part : Nat × CanonTerm}
    (mem : part ∈ term.parts) :
    ∃ below, canonTermKey sha256 names part.2 = .ok below ∧ below.1 < found.1 := by
  cases term with
  | sort _ | bvar _ | const _ _ => cases mem
  | app _ fn _ arg | lam _ fn _ arg | pi _ fn _ arg =>
    obtain ⟨_, first, key_ok⟩ := bind_eq_ok.mp key_ok
    obtain ⟨_, second, same⟩ := bind_eq_ok.mp key_ok
    obtain ⟨left, left_ok, rfl⟩ := map_eq_ok.mp first
    obtain ⟨right, right_ok, rfl⟩ := map_eq_ok.mp second
    cases same
    simp only [CanonTerm.parts, List.mem_cons, List.not_mem_nil, or_false] at mem
    rcases mem with rfl | rfl
    · exact ⟨left, left_ok, by simp only [termRecursion]; omega⟩
    · exact ⟨right, right_ok, by simp only [termRecursion]; omega⟩

/-- What a pass finds at the id of a part: the value of its entry, which stands before. -/
theorem term_part (arranged : ArrangedTerms sha256 names heap exprs entries)
    (fits : entries.length ≤ usizeMax) {i : Nat} {entry : CollectedNode CanonTerm}
    (at_i : entries[i]? = some entry) {part : TableExpr}
    (mem : part ∈ exprChildren entry.node.expr) {id : Id}
    (hasId : HasId CanonTerm.expr entries part id) :
    ∃ below ∈ entries, below.node.expr = part ∧ id.toNat < i ∧
      ∀ {V : Type} (value : CollectedNode CanonTerm → V),
        checkedChild ((entries.map value).take i) id = .ok (value below) := by
  obtain ⟨below, at_id, same⟩ := hasId.place fits
  have here := List.mem_of_getElem? at_id
  have described := arranged.described entry (List.mem_of_getElem? at_i)
  rw [exprChildren_expr] at mem
  obtain ⟨arc, at_arc, part_eq⟩ := List.mem_map.mp mem
  obtain ⟨found, found_ok, lower⟩ := canonTermKey_part_lt described.key at_arc
  have height : below.height = found.1 := by
    have copies : canonTermKey sha256 names below.node = canonTermKey sha256 names arc.2 :=
      canonTermKey_congr (same.trans part_eq.symm)
    rw [(arranged.described below here).key, found_ok] at copies
    cases copies
    rfl
  have before := arranged.place_lt at_id at_i (height ▸ lower)
  refine ⟨below, here, same, before, fun value => ?_⟩
  rw [checkedChild_eq_ok, List.getElem?_take, if_pos before, List.getElem?_map, at_id,
    Option.map_some]

/-- What a pass over terms finds at the id of a level. -/
theorem term_level (levels : ArrangedLevels sha256 names scope levelEntries)
    (fits : levelEntries.length ≤ usizeMax) {id : Id} (hasId : HasId (·) levelEntries level id) :
    id.toNat < levelEntries.length ∧ checkedChild (levelEntries.map (·.node)) id = .ok level ∧
      ∃ hash, canonLevelHash sha256 names level = .ok hash ∧
        checkedChild (levelEntries.map (·.hash)) id = .ok hash := by
  obtain ⟨entry, at_id, same⟩ := hasId.place fits
  have hash_ok := (levels.described entry (List.mem_of_getElem? at_id)).hash_ok
  have bound := (List.getElem?_eq_some_iff.mp at_id).1
  refine ⟨bound, ?_, entry.hash, same ▸ hash_ok, ?_⟩
  · rw [checkedChild_eq_ok, List.getElem?_map, at_id, Option.map_some, same]
  · rw [checkedChild_eq_ok, List.getElem?_map, at_id, Option.map_some]

theorem term_levels (levels : ArrangedLevels sha256 names scope levelEntries)
    (fits : levelEntries.length ≤ usizeMax) {args : List CanonLevel} {ids : List Id}
    (hasIds : List.Forall₂ (HasId (·) levelEntries) args ids) :
    (∀ id ∈ ids, id.toNat < levelEntries.length) ∧
      Result.collect ids (checkedChild (levelEntries.map (·.node))) = .ok args ∧
      ∃ hashes, Result.collect args (canonLevelHash sha256 names) = .ok hashes ∧
        Result.collect ids (checkedChild (levelEntries.map (·.hash))) = .ok hashes := by
  induction hasIds with
  | nil => exact ⟨by simp, rfl, [], rfl, rfl⟩
  | cons hasId _ ih =>
    obtain ⟨bound, tree, hash, hash_ok, found⟩ := term_level levels fits hasId
    obtain ⟨bounds, trees, hashes, hashes_ok, founds⟩ := ih
    refine ⟨List.forall_mem_cons.mpr ⟨bound, bounds⟩, ?_, hash :: hashes, ?_, ?_⟩
    · rw [Result.collect, tree, ok_bind, trees, ok_bind]
    · rw [Result.collect, hash_ok, ok_bind, hashes_ok, ok_bind]
    · rw [Result.collect, found, ok_bind, founds, ok_bind]

variable {i : Nat} {entry : CollectedNode CanonTerm} {node : TermNode}

theorem termNode_children (arranged : ArrangedTerms sha256 names heap exprs entries)
    (fits : entries.length ≤ usizeMax) (at_i : entries[i]? = some entry)
    (nodeFor : TermNodeFor levelEntries entries entry.node.expr node) :
    ∀ child ∈ node.children, child < i := by
  have place : ∀ {part : TableExpr} {id : Id}, part ∈ exprChildren entry.node.expr →
      HasId CanonTerm.expr entries part id → id.toNat < i := by
    intro part id mem hasId
    obtain ⟨_, _, _, before, _⟩ := term_part arranged fits at_i mem hasId
    exact before
  generalize expr_eq : entry.node.expr = expr at nodeFor place
  cases nodeFor with
  | sort | bvar | const => simp [TermNode.children, TermNode.terms]
  | app left right | lam left right | pi left right =>
    simp only [TermNode.children, TermNode.terms, List.map_cons, List.map_nil, List.mem_cons,
      List.not_mem_nil, or_false, forall_eq_or_imp, forall_eq]
    exact ⟨place (by simp [exprChildren]) left, place (by simp [exprChildren]) right⟩

theorem termNode_levels (levels : ArrangedLevels sha256 names scope levelEntries)
    (fits : levelEntries.length ≤ usizeMax) {expr : TableExpr}
    (nodeFor : TermNodeFor levelEntries entries expr node) :
    ∀ level ∈ node.levels, level.toNat < levelEntries.length := by
  cases nodeFor with
  | sort hasId => simpa [TermNode.levels] using (term_level levels fits hasId).1
  | const hasIds => exact (term_levels levels fits hasIds).1
  | bvar | app | lam | pi => simp [TermNode.levels]

/-- The tree that the node unfolds to is the term of its entry. -/
theorem termNode_unfold (levels : ArrangedLevels sha256 names scope levelEntries)
    (levelFits : levelEntries.length ≤ usizeMax)
    (arranged : ArrangedTerms sha256 names heap exprs entries) (fits : entries.length ≤ usizeMax)
    (at_i : entries[i]? = some entry)
    (nodeFor : TermNodeFor levelEntries entries entry.node.expr node) :
    unfoldTermNode (levelEntries.map (·.node)) ((entries.map (·.node.expr)).take i) node =
      .ok entry.node.expr := by
  have found : ∀ {part : TableExpr} {id : Id}, part ∈ exprChildren entry.node.expr →
      HasId CanonTerm.expr entries part id →
        checkedChild ((entries.map (·.node.expr)).take i) id = .ok part := by
    intro part id mem hasId
    obtain ⟨below, _, same, _, value⟩ := term_part arranged fits at_i mem hasId
    rw [value, same]
  generalize expr_eq : entry.node.expr = expr at nodeFor found
  cases nodeFor with
  | sort hasId => rw [unfoldTermNode, (term_level levels levelFits hasId).2.1, ok_bind]
  | bvar index => rfl
  | const hasIds => rw [unfoldTermNode, (term_levels levels levelFits hasIds).2.1, ok_bind]
  | app left right | lam left right | pi left right =>
    rw [unfoldTermNode, found (by simp [exprChildren]) left, ok_bind,
      found (by simp [exprChildren]) right, ok_bind]

/-- The height and the key that the verifier computes are those that the builder sorted by. -/
theorem termNode_key (levels : ArrangedLevels sha256 names scope levelEntries)
    (levelFits : levelEntries.length ≤ usizeMax)
    (arranged : ArrangedTerms sha256 names heap exprs entries) (fits : entries.length ≤ usizeMax)
    (at_i : entries[i]? = some entry)
    (nodeFor : TermNodeFor levelEntries entries entry.node.expr node) :
    termNodeKey (levelEntries.map (·.hash)) ((entries.map (·.hash)).take i) node = .ok entry.key ∧
      legacyTermHeight ((entries.map (·.height)).take i) node = .ok entry.height := by
  have key_ok := (arranged.described entry (List.mem_of_getElem? at_i)).key
  have found : ∀ {part : Nat × CanonTerm} {id : Id}, part ∈ entry.node.parts →
      HasId CanonTerm.expr entries part.2.expr id → ∃ below : Nat × Bytes,
        canonTermKey sha256 names part.2 = .ok below ∧
        checkedChild ((entries.map (·.hash)).take i) id = .ok (termHash sha256 below.2) ∧
        checkedChild ((entries.map (·.height)).take i) id = .ok below.1 := by
    intro part id mem hasId
    have child : part.2.expr ∈ exprChildren entry.node.expr := by
      rw [exprChildren_expr]
      exact List.mem_map.mpr ⟨part, mem, rfl⟩
    obtain ⟨below, here, same, _, value⟩ := term_part arranged fits at_i child hasId
    have described := arranged.described below here
    refine ⟨(below.height, below.key), ?_, ?_, value _⟩
    · rw [← described.key]
      exact canonTermKey_congr same.symm
    · rw [value, described.hash]
  -- the pair is made a variable, so that each case may compute it
  suffices plain : ∀ pair, canonTermKey sha256 names entry.node = .ok pair →
      termNodeKey (levelEntries.map (·.hash)) ((entries.map (·.hash)).take i) node = .ok pair.2 ∧
        legacyTermHeight ((entries.map (·.height)).take i) node = .ok pair.1 from plain _ key_ok
  clear key_ok
  intro pair key_ok
  generalize node_eq : entry.node = term at nodeFor found key_ok
  cases term with
  | sort level =>
    cases nodeFor with
    | sort hasId =>
      obtain ⟨_, _, hash, hash_ok, at_id⟩ := term_level levels levelFits hasId
      rw [canonTermKey, assembleTerm, hash_ok, ok_bind] at key_ok
      cases key_ok
      exact ⟨by rw [termNodeKey, at_id, ok_bind], rfl⟩
  | bvar index =>
    rw [canonTermKey, assembleTerm] at key_ok
    rw [CanonTerm.expr] at nodeFor
    generalize index_eq : index.toNat = place at nodeFor
    cases nodeFor with
    | bvar other =>
      obtain rfl := UInt32.toNat_inj.mp index_eq
      cases key_ok
      exact ⟨rfl, rfl⟩
  | const globalRef args =>
    cases nodeFor with
    | const hasIds =>
      obtain ⟨_, _, hashes, hashes_ok, at_ids⟩ := term_levels levels levelFits hasIds
      rw [canonTermKey, assembleTerm, hashes_ok, ok_bind] at key_ok
      cases key_ok
      have lengths : encodeLen _ = encodeLen args := congrArg (encodeUvar <| .ofNat ·) hasIds.length_eq.symm
      exact ⟨by rw [termNodeKey, at_ids, ok_bind, lengths], rfl⟩
  | app fnAddr fn argAddr arg =>
    cases nodeFor with
    | app left right =>
      obtain ⟨lhs, lhs_ok, lhsHash, lhsHeight⟩ := @found (fnAddr, fn) _ (.head _) left
      obtain ⟨rhs, rhs_ok, rhsHash, rhsHeight⟩ :=
        @found (argAddr, arg) _ (.tail _ (.head _)) right
      rw [canonTermKey, lhs_ok, rhs_ok] at key_ok
      cases key_ok
      exact ⟨by rw [termNodeKey, lhsHash, ok_bind, rhsHash, ok_bind]; rfl,
        by rw [legacyTermHeight, lhsHeight, ok_bind, rhsHeight, ok_bind]; rfl⟩
  | lam tyAddr ty bodyAddr body =>
    cases nodeFor with
    | lam left right =>
      obtain ⟨lhs, lhs_ok, lhsHash, lhsHeight⟩ := @found (tyAddr, ty) _ (.head _) left
      obtain ⟨rhs, rhs_ok, rhsHash, rhsHeight⟩ :=
        @found (bodyAddr, body) _ (.tail _ (.head _)) right
      rw [canonTermKey, lhs_ok, rhs_ok] at key_ok
      cases key_ok
      exact ⟨by rw [termNodeKey, lhsHash, ok_bind, rhsHash, ok_bind]; rfl,
        by rw [legacyTermHeight, lhsHeight, ok_bind, rhsHeight, ok_bind]; rfl⟩
  | pi tyAddr ty bodyAddr body =>
    cases nodeFor with
    | pi left right =>
      obtain ⟨lhs, lhs_ok, lhsHash, lhsHeight⟩ := @found (tyAddr, ty) _ (.head _) left
      obtain ⟨rhs, rhs_ok, rhsHash, rhsHeight⟩ :=
        @found (bodyAddr, body) _ (.tail _ (.head _)) right
      rw [canonTermKey, lhs_ok, rhs_ok] at key_ok
      cases key_ok
      exact ⟨by rw [termNodeKey, lhsHash, ok_bind, rhsHash, ok_bind]; rfl,
        by rw [legacyTermHeight, lhsHeight, ok_bind, rhsHeight, ok_bind]; rfl⟩

end Terms

/-! ### What the verifier checks -/

section Accepted

variable {N M : Type} {entries : List (CollectedNode N)} {table : List M}
  {key : List Hash → M → CertResult Bytes} {height : List Nat → M → CertResult Nat}
  {digest : Bytes → Hash}

/-- A table whose passes compute the entries has their hashes, and its keys increase. -/
theorem accepted_of_entries (object : String) (stable : Stable key)
    (lengths : entries.length = table.length)
    (steps : ∀ (i : Nat) entry node, entries[i]? = some entry → table[i]? = some node →
      key ((entries.map (·.hash)).take i) node = .ok entry.key ∧
        height ((entries.map (·.height)).take i) node = .ok entry.height ∧
          entry.hash = digest entry.key)
    (increasing : entries.Pairwise fun a b => a.cmp b = .lt) :
    run (keyStep key digest) [] table = .ok (entries.map (·.hash)) ∧
      run height [] table = .ok (entries.map (·.height)) ∧
      ∃ state, checkKeys key (legacyCheckNodeOrder object) (entries.map (·.hash)) none
        (table.zip (entries.map (·.height))) = .ok state := by
  have pair : ∀ (i : Nat) node, table[i]? = some node → ∃ entry, entries[i]? = some entry := by
    intro i node at_node
    have bound := (List.getElem?_eq_some_iff.mp at_node).1
    exact ⟨entries[i], List.getElem?_eq_getElem _⟩
  refine ⟨?_, ?_, ?_⟩
  · apply run_of_steps (by simpa using lengths)
    intro i node hash at_node at_hash
    obtain ⟨entry, at_entry⟩ := pair i node at_node
    obtain ⟨key_ok, _, hash_eq⟩ := steps i entry node at_entry at_node
    rw [List.getElem?_map, at_entry] at at_hash
    cases at_hash
    rw [keyStep, key_ok, ok_bind, ← hash_eq]
  · apply run_of_steps (by simpa using lengths)
    intro i node value at_node at_value
    obtain ⟨entry, at_entry⟩ := pair i node at_node
    obtain ⟨_, height_ok, _⟩ := steps i entry node at_entry at_node
    rw [List.getElem?_map, at_entry] at at_value
    cases at_value
    exact height_ok
  · apply checkKeys_isOk_iff.mpr
    refine ⟨entries.map fun entry => (entry.height, entry.key), ?_, ?_⟩
    · apply collect_eq_ok.mpr
      apply List.forall₂_iff_get.mpr
      refine ⟨by simp [lengths], ?_⟩
      intro i at_pair at_entry
      have inside : i < entries.length := by simpa using at_entry
      have at_node : i < table.length := by omega
      obtain ⟨key_ok, _, _⟩ := steps i entries[i] table[i] (List.getElem?_eq_getElem inside)
        (List.getElem?_eq_getElem at_node)
      have whole : key (entries.map (·.hash)) table[i] = .ok entries[i].key := by
        have later := stable _ ((entries.map (·.hash)).drop i) _ _ key_ok
        rwa [List.take_append_drop] at later
      simp [entryKey, whole, ok_bind]
    · rw [Option.toList_none, List.nil_append]
      apply List.Pairwise.isChain
      exact List.pairwise_map.mpr increasing

end Accepted

section Tables

variable {N M K : Type} {view : N → K} {entries entries' : List (CollectedNode N)}
  {table table' : List M}

/-- A table with one node for every entry, none of which is the node of two views. -/
theorem nodup_of_entries {R : K → M → Prop}
    (tableFor : List.Forall₂ (fun entry node => R (view entry.node) node) entries table)
    (views : (entries.map fun entry => view entry.node).Nodup)
    (inj : ∀ k k' node, R k node → R k' node → k = k') : table.Nodup := by
  induction tableFor with
  | nil => exact .nil
  | @cons entry node entries nodes here rest ih =>
    rw [List.map_cons, List.nodup_cons] at views
    refine List.nodup_cons.mpr ⟨?_, ih views.2⟩
    intro again
    obtain ⟨i, bound, same⟩ := List.mem_iff_getElem.mp again
    have inside : i < entries.length := rest.length_eq ▸ bound
    have other := rest.get inside bound
    simp only [List.get_eq_getElem, same] at other
    have views_eq := inj _ _ node here other
    apply views.1
    rw [views_eq]
    exact List.mem_map.mpr ⟨entries[i], List.getElem_mem inside, rfl⟩

/-- Tables for the same views, with one node for each of them. -/
theorem table_eq_of_entries {R R' : K → M → Prop}
    (left : List.Forall₂ (fun entry node => R (view entry.node) node) entries table)
    (right : List.Forall₂ (fun entry node => R' (view entry.node) node) entries' table')
    (views : (entries.map fun entry => view entry.node) = entries'.map fun entry => view entry.node)
    (unique : ∀ k node node', R k node → R' k node' → node = node') : table = table' := by
  induction left generalizing entries' table' with
  | nil =>
    cases right with
    | nil => rfl
    | cons => simp at views
  | cons here rest ih =>
    cases right with
    | nil => simp at views
    | cons there others =>
      simp only [List.map_cons, List.cons.injEq] at views
      rw [views.1] at here
      rw [unique _ _ _ here there, ih others views.2]

variable {describes : CollectedNode N → Prop} {all : Set K}

/-- The sorted entries are those of their views, whatever stands for them. -/
theorem arranged_unique (arranged : Arranged describes view all entries)
    (arranged' : Arranged describes view all entries')
    (keyed : ∀ a b, describes a → describes b → view a.node = view b.node →
      a.height = b.height ∧ a.key = b.key ∧ a.hash = b.hash) :
    (entries.map fun entry => (entry.height, entry.key, entry.hash, view entry.node)) =
      entries'.map fun entry => (entry.height, entry.key, entry.hash, view entry.node) := by
  have members : ∀ {some others : List (CollectedNode N)}, Arranged describes view all some →
      Arranged describes view all others → ∀ summary,
        summary ∈ (some.map fun entry => (entry.height, entry.key, entry.hash, view entry.node)) →
        summary ∈ others.map fun entry => (entry.height, entry.key, entry.hash, view entry.node) := by
    intro some others first second summary mem
    obtain ⟨entry, at_entry, rfl⟩ := List.mem_map.mp mem
    obtain ⟨other, at_other, same⟩ :=
      (second.nodes _).mp ((first.nodes _).mpr ⟨entry, at_entry, rfl⟩)
    obtain ⟨heights, keys, hashes⟩ :=
      keyed other entry (second.described other at_other) (first.described entry at_entry) same
    exact List.mem_map.mpr ⟨other, at_other, by rw [heights, keys, hashes, same]⟩
  have ordered : ∀ {some : List (CollectedNode N)}, Arranged describes view all some →
      (some.map fun entry => (entry.height, entry.key, entry.hash, view entry.node)).Pairwise
        fun a b => compareLex (compareOn Prod.fst) (compareOn fun summary => summary.2.1) a b = .lt :=
    fun arranged => List.pairwise_map.mpr arranged.increasing
  exact Sorted.eq_of_mem_iff (ordered arranged) (ordered arranged') fun summary =>
    ⟨members arranged arranged' summary, members arranged' arranged summary⟩

end Tables

/-! ### The tables of a build -/

section Faithful

variable {sha256 : Bytes → Hash} {names : List Name} {heap : Nat → Option CanonTerm}
  {requests : List CollectRequest} {tables : CanonBuiltTables}

variable (sha256 names heap requests tables) in
/-- The sorted entries of a build, with a node in the tables for each of them. -/
structure Built : Prop where
  levels : ArrangedLevels sha256 names (reachedLevels requests) tables.nodeIds.levels
  terms : ArrangedTerms sha256 names heap (reachedTerms requests) tables.nodeIds.terms
  memo : KeptMemo sha256 names heap tables.nodeIds.termMemo
  levelTable : LevelTableFor tables.nodeIds.levels tables.levelTable
  termTable : TermTableFor tables.nodeIds.levels tables.nodeIds.terms tables.nodeIds.terms
    tables.termTable
  levelHashes : tables.levelHashes = tables.nodeIds.levels.map (·.hash)
  termHashes : tables.termHashes = tables.nodeIds.terms.map (·.hash)

variable (sha256 names heap requests tables) in
/-- The tables store the levels and terms of the requests, each once, with their ids and their
    hashes. -/
structure FaithfulTables (levels : List CanonLevel) (terms : List TableExpr) : Prop where
  levelOrder : Ordered LevelNode.children tables.levelTable
  termOrder : Ordered TermNode.children tables.termTable
  termLevels : ∀ node ∈ tables.termTable, ∀ level ∈ node.levels,
    level.toNat < tables.levelTable.length
  levelNodup : tables.levelTable.Nodup
  termNodup : tables.termTable.Nodup
  unfoldLevels : unfoldLevels tables.levelTable = .ok levels
  unfoldTerms : unfoldTerms levels tables.termTable = .ok terms
  treesNodup : levels.Nodup ∧ terms.Nodup
  levelsExact : ∀ level, level ∈ levels ↔ level ∈ reachedLevels requests
  termsExact : ∀ expr, expr ∈ terms ↔ expr ∈ reachedTerms requests
  levelIds : ∀ level ∈ reachedLevels requests, ∃ id,
    levelId sha256 names tables.nodeIds.levels level = .ok id ∧ levels[id.toNat]? = some level
  termIds : ∀ term : CanonTerm, term.expr ∈ reachedTerms requests →
    (termRecursion sha256 names).Lives heap term → ∃ id memo,
      tables.nodeIds.termId sha256 names term = .ok (id, memo) ∧
        terms[id.toNat]? = some term.expr
  levelHashes : computeLevelHashes sha256 names tables.levelTable = .ok tables.levelHashes
  termHashes : computeTermHashes sha256 tables.levelHashes tables.termTable = .ok tables.termHashes

/-- The checks of the verifier on a certificate with these tables. -/
structure PassesOrderChecks (sha256 : Bytes → Hash) (tables : CanonBuiltTables)
    (cert : ModuleCert) : Prop where
  levels : ∃ references : ValidatedLevelReferences cert,
    processLevelTable sha256 cert references (levelNodeHeights cert references) =
      .ok tables.levelHashes
  terms : (∀ globalRef ids, .const globalRef ids ∈ cert.termTable →
      globalRefIsInRange sha256 cert globalRef = true) →
    ∃ references : ValidatedTermReferences sha256 cert,
      processTermTable sha256 cert references tables.levelHashes
        (termNodeHeights sha256 cert references) = .ok tables.termHashes

/-- No more nodes than there may be places of a vector. -/
structure CanonBuiltTables.Fits (tables : CanonBuiltTables) : Prop where
  levels : tables.levelTable.length ≤ usizeMax
  terms : tables.termTable.length ≤ usizeMax

theorem Built.levelFits (built : Built sha256 names heap requests tables) (fits : tables.Fits) :
    tables.nodeIds.levels.length ≤ usizeMax := built.levelTable.length_eq ▸ fits.levels

theorem Built.termFits (built : Built sha256 names heap requests tables) (fits : tables.Fits) :
    tables.nodeIds.terms.length ≤ usizeMax := built.termTable.length_eq ▸ fits.terms

theorem forall₂_entry {α β : Type} {R : α → β → Prop} {xs : List α} {ys : List β}
    (related : List.Forall₂ R xs ys) {i : Nat} {y : β} (at_i : ys[i]? = some y) :
    ∃ x, xs[i]? = some x ∧ R x y := by
  obtain ⟨bound, rfl⟩ := List.getElem?_eq_some_iff.mp at_i
  have inside : i < xs.length := related.length_eq ▸ bound
  exact ⟨xs[i], List.getElem?_eq_getElem inside, related.get inside bound⟩

theorem Built.unfoldLevels (built : Built sha256 names heap requests tables) (fits : tables.Fits) :
    Wire.unfoldLevels tables.levelTable = .ok (tables.nodeIds.levels.map (·.node)) := by
  apply run_of_steps
  · rw [List.length_map, built.levelTable.length_eq]
  · intro i node level at_node at_level
    obtain ⟨entry, at_entry, nodeFor⟩ := forall₂_entry built.levelTable at_node
    rw [List.getElem?_map, at_entry] at at_level
    cases at_level
    exact levelNode_unfold built.levels (built.levelFits fits) at_entry nodeFor

theorem Built.unfoldTerms (built : Built sha256 names heap requests tables) (fits : tables.Fits) :
    Wire.unfoldTerms (tables.nodeIds.levels.map (·.node)) tables.termTable =
      .ok (tables.nodeIds.terms.map (·.node.expr)) := by
  apply run_of_steps
  · rw [List.length_map, built.termTable.length_eq]
  · intro i node expr at_node at_expr
    obtain ⟨entry, at_entry, nodeFor⟩ := forall₂_entry built.termTable at_node
    rw [List.getElem?_map, at_entry] at at_expr
    cases at_expr
    exact termNode_unfold built.levels (built.levelFits fits) built.terms (built.termFits fits)
      at_entry nodeFor

theorem Built.levelPasses (built : Built sha256 names heap requests tables) (fits : tables.Fits) :
    run (keyStep (levelNodeKey names) (levelHash sha256)) [] tables.levelTable =
        .ok tables.levelHashes ∧
      run legacyLevelHeight [] tables.levelTable = .ok (tables.nodeIds.levels.map (·.height)) ∧
      ∃ state, checkKeys (levelNodeKey names) (legacyCheckNodeOrder "LevelTable") tables.levelHashes
        none (tables.levelTable.zip (tables.nodeIds.levels.map (·.height))) = .ok state := by
  rw [built.levelHashes]
  apply accepted_of_entries "LevelTable" (levelNodeKey_stable names) built.levelTable.length_eq _
    built.levels.increasing
  intro i entry node at_entry at_node
  obtain ⟨other, at_other, nodeFor⟩ := forall₂_entry built.levelTable at_node
  rw [at_entry] at at_other
  cases at_other
  exact ⟨levelNode_key built.levels (built.levelFits fits) at_entry nodeFor,
    levelNode_height built.levels (built.levelFits fits) at_entry nodeFor,
    (built.levels.described entry (List.mem_of_getElem? at_entry)).hash⟩

theorem Built.termPasses (built : Built sha256 names heap requests tables) (fits : tables.Fits) :
    run (keyStep (termNodeKey tables.levelHashes) (termHash sha256)) [] tables.termTable =
        .ok tables.termHashes ∧
      run legacyTermHeight [] tables.termTable = .ok (tables.nodeIds.terms.map (·.height)) ∧
      ∃ state, checkKeys (termNodeKey tables.levelHashes) (legacyCheckNodeOrder "TermTable")
        tables.termHashes none (tables.termTable.zip (tables.nodeIds.terms.map (·.height))) =
          .ok state := by
  rw [built.levelHashes, built.termHashes]
  apply accepted_of_entries "TermTable" (termNodeKey_stable _) built.termTable.length_eq _
    built.terms.increasing
  intro i entry node at_entry at_node
  obtain ⟨other, at_other, nodeFor⟩ := forall₂_entry built.termTable at_node
  rw [at_entry] at at_other
  cases at_other
  obtain ⟨key_ok, height_ok⟩ := termNode_key built.levels (built.levelFits fits) built.terms
    (built.termFits fits) at_entry nodeFor
  exact ⟨key_ok, height_ok, (built.terms.described entry (List.mem_of_getElem? at_entry)).hash⟩

theorem Built.levelOrder (built : Built sha256 names heap requests tables) (fits : tables.Fits) :
    Ordered LevelNode.children tables.levelTable := by
  intro i node at_node
  obtain ⟨entry, at_entry, nodeFor⟩ := forall₂_entry built.levelTable at_node
  exact levelNode_children built.levels (built.levelFits fits) at_entry nodeFor

theorem Built.termOrder (built : Built sha256 names heap requests tables) (fits : tables.Fits) :
    Ordered TermNode.children tables.termTable := by
  intro i node at_node
  obtain ⟨entry, at_entry, nodeFor⟩ := forall₂_entry built.termTable at_node
  exact termNode_children built.terms (built.termFits fits) at_entry nodeFor

theorem Built.termLevels (built : Built sha256 names heap requests tables) (fits : tables.Fits) :
    ∀ node ∈ tables.termTable, ∀ level ∈ node.levels,
      level.toNat < tables.levelTable.length := by
  intro node mem
  obtain ⟨i, at_node⟩ := List.mem_iff_getElem?.mp mem
  obtain ⟨entry, _, nodeFor⟩ := forall₂_entry built.termTable at_node
  rw [← built.levelTable.length_eq]
  exact termNode_levels built.levels (built.levelFits fits) nodeFor

/-- A node of a level, then of another one, is of one level. -/
theorem levelNodeFor_inj {entries : List (CollectedNode CanonLevel)}
    (fits : entries.length ≤ usizeMax) {level other : CanonLevel} {node : LevelNode}
    (first : LevelNodeFor entries level node) (second : LevelNodeFor entries other node) :
    level = other := by
  cases first with
  | zero | param =>
    cases second
    rfl
  | succ inner =>
    cases second with
    | succ inner' => rw [inner.inj fits inner']
  | max left right =>
    cases second with
    | max left' right' => rw [left.inj fits left', right.inj fits right']
  | imax left right =>
    cases second with
    | imax left' right' => rw [left.inj fits left', right.inj fits right']

theorem termNodeFor_inj {levelEntries : List (CollectedNode CanonLevel)}
    {entries : List (CollectedNode CanonTerm)} (levelFits : levelEntries.length ≤ usizeMax)
    (fits : entries.length ≤ usizeMax) {expr other : TableExpr} {node : TermNode}
    (first : TermNodeFor levelEntries entries expr node)
    (second : TermNodeFor levelEntries entries other node) : expr = other := by
  cases first with
  | sort inner =>
    cases second with
    | sort inner' => rw [inner.inj levelFits inner']
  | bvar index =>
    cases second
    rfl
  | const args =>
    cases second with
    | const args' =>
      have unique : Relator.LeftUnique (HasId (·) levelEntries) :=
        fun _ _ _ left right => left.inj levelFits right
      rw [List.left_unique_forall₂' unique args args']
  | app left right =>
    cases second with
    | app left' right' => rw [left.inj fits left', right.inj fits right']
  | lam left right =>
    cases second with
    | lam left' right' => rw [left.inj fits left', right.inj fits right']
  | pi left right =>
    cases second with
    | pi left' right' => rw [left.inj fits left', right.inj fits right']

theorem levels_keyed {scope : Set CanonLevel} {a b : CollectedNode CanonLevel}
    (left : DescribesLevel sha256 names scope a) (right : DescribesLevel sha256 names scope b)
    (same : a.node = b.node) : a.height = b.height ∧ a.key = b.key ∧ a.hash = b.hash := by
  have keys : a.key = b.key := by
    have key_ok := left.key
    rw [same, right.key] at key_ok
    exact (Except.ok.inj key_ok).symm
  exact ⟨by rw [left.height, right.height, same], keys, by rw [left.hash, right.hash, keys]⟩

theorem terms_keyed {heap' : Nat → Option CanonTerm} {exprs : Set TableExpr}
    {a b : CollectedNode CanonTerm} (left : DescribesTerm sha256 names heap exprs a)
    (right : DescribesTerm sha256 names heap' exprs b) (same : a.node.expr = b.node.expr) :
    a.height = b.height ∧ a.key = b.key ∧ a.hash = b.hash := by
  have key_ok := left.key
  rw [canonTermKey_congr same, right.key] at key_ok
  obtain ⟨heights, keys⟩ := Prod.mk.inj (Except.ok.inj key_ok)
  exact ⟨heights.symm, keys.symm, by rw [left.hash, right.hash, keys]⟩

theorem Built.levels_nodup (built : Built sha256 names heap requests tables) :
    (tables.nodeIds.levels.map (·.node)).Nodup := by
  apply List.pairwise_map.mpr
  apply (List.pairwise_map.mp built.levels.nodup).imp_of_mem
  intro a b at_a at_b different same
  exact different (levels_keyed (built.levels.described a at_a) (built.levels.described b at_b)
    same).2.2

theorem Built.terms_nodup (built : Built sha256 names heap requests tables) :
    (tables.nodeIds.terms.map (·.node.expr)).Nodup := by
  apply List.pairwise_map.mpr
  apply (List.pairwise_map.mp built.terms.nodup).imp_of_mem
  intro a b at_a at_b different same
  exact different (terms_keyed (built.terms.described a at_a) (built.terms.described b at_b)
    same).2.2

theorem Built.faithful (built : Built sha256 names heap requests tables) (fits : tables.Fits) :
    FaithfulTables sha256 names heap requests tables (tables.nodeIds.levels.map (·.node))
      (tables.nodeIds.terms.map (·.node.expr)) where
  levelOrder := built.levelOrder fits
  termOrder := built.termOrder fits
  termLevels := built.termLevels fits
  levelNodup := @nodup_of_entries _ _ _ (·) _ _ _ built.levelTable built.levels_nodup fun _ _ _ =>
    levelNodeFor_inj (built.levelFits fits)
  termNodup := @nodup_of_entries _ _ _ CanonTerm.expr _ _ _ built.termTable built.terms_nodup
    fun _ _ _ => termNodeFor_inj (built.levelFits fits) (built.termFits fits)
  unfoldLevels := built.unfoldLevels fits
  unfoldTerms := built.unfoldTerms fits
  treesNodup := ⟨built.levels_nodup, built.terms_nodup⟩
  levelsExact level := by
    rw [List.mem_map]
    exact (built.levels.nodes level).symm
  termsExact expr := by
    rw [List.mem_map]
    exact (built.terms.nodes expr).symm
  levelIds level here := by
    obtain ⟨id, id_ok, hasId⟩ := levelId_eq built.levels here
    obtain ⟨entry, at_id, same⟩ := hasId.place (built.levelFits fits)
    exact ⟨id, id_ok, by rw [List.getElem?_map, at_id, Option.map_some, same]⟩
  termIds term here lives := by
    obtain ⟨key, id, key_ok, id_ok, hasId⟩ := nodeId_term built.terms here
    obtain ⟨memo, _, ran⟩ := (canonTermHeightAndKey_computes lives).ok key key_ok _ built.memo
    obtain ⟨entry, at_id, same⟩ := hasId.place (built.termFits fits)
    refine ⟨id, memo, ?_, by rw [List.getElem?_map, at_id, Option.map_some, same]⟩
    rw [CanonNodeIds.termId, ran, ok_bind]
    dsimp only
    rw [id_ok, ok_bind]
  levelHashes := (built.levelPasses fits).1
  termHashes := (built.termPasses fits).1

theorem Built.passes (built : Built sha256 names heap requests tables) (fits : tables.Fits)
    {cert : ModuleCert} (nameTable : cert.nameTable = names)
    (levelTable : cert.levelTable = tables.levelTable)
    (termTable : cert.termTable = tables.termTable) : PassesOrderChecks sha256 tables cert where
  levels := by
    have named : ∀ name, .param name ∈ cert.levelTable → name.toNat < cert.nameTable.length := by
      intro name mem
      rw [levelTable] at mem
      obtain ⟨i, at_node⟩ := List.mem_iff_getElem?.mp mem
      obtain ⟨entry, at_entry, nodeFor⟩ := forall₂_entry built.levelTable at_node
      have key_ok := (built.levels.described entry (List.mem_of_getElem? at_entry)).key
      generalize entry.node = level at nodeFor key_ok
      cases nodeFor
      rw [canonLevelKey] at key_ok
      obtain ⟨found, at_name, _⟩ := bind_eq_ok.mp key_ok
      rw [nameTable]
      exact checkedChild_isOk_iff.mp ⟨found, at_name⟩
    have references : ValidatedLevelReferences cert :=
      ⟨by rw [levelTable]; exact built.levelOrder fits, named⟩
    obtain ⟨hashed, heights, state, checked⟩ := built.levelPasses fits
    refine ⟨references, ?_⟩
    rw [processLevelTable_eq, computeLevelHashes, legacyLevelHeights, nameTable, levelTable, hashed,
      ok_bind, heights, ok_bind, checked, ok_bind]
  terms := by
    intro inRange
    have references : ValidatedTermReferences sha256 cert := by
      refine ⟨?_, ?_, inRange⟩
      · rw [termTable]
        exact built.termOrder fits
      · rw [termTable, levelTable]
        exact built.termLevels fits
    obtain ⟨hashed, heights, state, checked⟩ := built.termPasses fits
    have oneEach : tables.levelHashes.length = cert.levelTable.length := by
      rw [levelTable, run_length (built.levelPasses fits).1, List.length_nil, Nat.zero_add]
    refine ⟨references, ?_⟩
    rw [processTermTable_eq _ oneEach, computeTermHashes, legacyTermHeights, termTable, hashed,
      ok_bind, heights, ok_bind, checked, ok_bind]

/-! ### Other orders -/

/-- The same views stand at the same places, so ids are the same. -/
theorem hasId_unique {N K : Type} {describes : CollectedNode N → Prop} {view : N → K} {all : Set K}
    {entries entries' : List (CollectedNode N)} (arranged : Arranged describes view all entries)
    (keyed : ∀ a b, describes a → describes b → view a.node = view b.node → a.hash = b.hash)
    (views : (entries.map fun entry => view entry.node) = entries'.map fun entry => view entry.node)
    {k : K} {id id' : Id} (left : HasId view entries k id) (right : HasId view entries' k id') :
    id = id' := by
  obtain ⟨i, entry, at_i, same, rfl⟩ := left
  obtain ⟨j, entry', at_j, same', rfl⟩ := right
  have at_view : (entries.map fun entry => view entry.node)[j]? = some k := by
    rw [views, List.getElem?_map, at_j, Option.map_some, same']
  rw [List.getElem?_map, Option.map_eq_some_iff] at at_view
  obtain ⟨other, at_other, other_eq⟩ := at_view
  rw [arranged.place_unique keyed at_i at_other (same.trans other_eq.symm)]

theorem levelNodeFor_unique {entries entries' : List (CollectedNode CanonLevel)}
    (ids : ∀ level id id', HasId (·) entries level id → HasId (·) entries' level id' → id = id')
    {node node' : LevelNode} (left : LevelNodeFor entries level node)
    (right : LevelNodeFor entries' level node') : node = node' := by
  cases left with
  | zero | param =>
    cases right
    rfl
  | succ inner =>
    cases right with
    | succ inner' => rw [ids _ _ _ inner inner']
  | max lhs rhs =>
    cases right with
    | max lhs' rhs' => rw [ids _ _ _ lhs lhs', ids _ _ _ rhs rhs']
  | imax lhs rhs =>
    cases right with
    | imax lhs' rhs' => rw [ids _ _ _ lhs lhs', ids _ _ _ rhs rhs']

theorem forall₂_unique {α β : Type} {R R' : α → β → Prop}
    (unique : ∀ a b b', R a b → R' a b' → b = b') {xs : List α} {ys ys' : List β}
    (left : List.Forall₂ R xs ys) (right : List.Forall₂ R' xs ys') : ys = ys' := by
  induction left generalizing ys' with
  | nil =>
    cases right
    rfl
  | cons here _ ih =>
    cases right with
    | cons here' rest' => rw [unique _ _ _ here here', ih rest']

theorem termNodeFor_unique {levels levels' : List (CollectedNode CanonLevel)}
    {entries entries' : List (CollectedNode CanonTerm)}
    (levelIds : ∀ level id id', HasId (·) levels level id → HasId (·) levels' level id' → id = id')
    (ids : ∀ expr id id', HasId CanonTerm.expr entries expr id →
      HasId CanonTerm.expr entries' expr id' → id = id')
    {expr : TableExpr} {node node' : TermNode} (left : TermNodeFor levels entries expr node)
    (right : TermNodeFor levels' entries' expr node') : node = node' := by
  cases left with
  | sort level =>
    cases right with
    | sort level' => rw [levelIds _ _ _ level level']
  | bvar index =>
    generalize place : index.toNat = value at right
    cases right with
    | bvar other => rw [UInt32.toNat_inj.mp place]
  | const args =>
    cases right with
    | const args' =>
      rw [forall₂_unique levelIds args args']
  | app fn arg =>
    cases right with
    | app fn' arg' => rw [ids _ _ _ fn fn', ids _ _ _ arg arg']
  | lam ty body =>
    cases right with
    | lam ty' body' => rw [ids _ _ _ ty ty', ids _ _ _ body body']
  | pi ty body =>
    cases right with
    | pi ty' body' => rw [ids _ _ _ ty ty', ids _ _ _ body body']

theorem Arranged.imp {N K : Type} {describes : CollectedNode N → Prop} {view : N → K}
    {all : Set K} {entries : List (CollectedNode N)}
    (arranged : Arranged describes view all entries) {describes' : CollectedNode N → Prop}
    (weaken : ∀ entry, describes entry → describes' entry) :
    Arranged describes' view all entries where
  described entry mem := weaken entry (arranged.described entry mem)
  nodup := arranged.nodup
  increasing := arranged.increasing
  nodes := arranged.nodes

/-- What two summaries of the same entries say of their hashes and views. -/
theorem views_of_summaries {N K : Type} {view : N → K} {entries entries' : List (CollectedNode N)}
    (same : (entries.map fun entry => (entry.height, entry.key, entry.hash, view entry.node)) =
      entries'.map fun entry => (entry.height, entry.key, entry.hash, view entry.node)) :
    entries.map (·.hash) = entries'.map (·.hash) ∧
      (entries.map fun entry => view entry.node) = entries'.map fun entry => view entry.node := by
  have hashes := congrArg (List.map fun summary => summary.2.2.1) same
  have views := congrArg (List.map fun summary => summary.2.2.2) same
  rw [List.map_map, List.map_map] at hashes views
  exact ⟨hashes, views⟩

variable (sha256 names) in
/-- The sorted terms, wherever their copies lie. -/
abbrev ArrangedSomewhere (exprs : Set TableExpr) (entries : List (CollectedNode CanonTerm)) : Prop :=
  Arranged (fun entry => ∃ heap, DescribesTerm sha256 names heap exprs entry) CanonTerm.expr exprs
    entries

variable (tables) in
/-- What is stored of the tables. -/
structure SameTables (others : CanonBuiltTables) : Prop where
  levelTable : others.levelTable = tables.levelTable
  levelHashes : others.levelHashes = tables.levelHashes
  termTable : others.termTable = tables.termTable
  termHashes : others.termHashes = tables.termHashes

theorem reached_congr {requests' : List CollectRequest}
    (levels : requestedLevels requests' = requestedLevels requests)
    (terms : requestedTerms requests' = requestedTerms requests) :
    reachedLevels requests' = reachedLevels requests ∧
      reachedTerms requests' = reachedTerms requests := by
  have reached : reachedTerms requests' = reachedTerms requests := by
    rw [reachedTerms, terms, reachedTerms]
  exact ⟨by rw [reachedLevels, levels, reached, reachedLevels], reached⟩

/-- The copies of the terms may lie elsewhere. -/
theorem Built.same {heap' : Nat → Option CanonTerm} {requests' : List CollectRequest}
    {others : CanonBuiltTables} (built : Built sha256 names heap requests tables)
    (built' : Built sha256 names heap' requests' others)
    (levels : requestedLevels requests' = requestedLevels requests)
    (terms : requestedTerms requests' = requestedTerms requests) : SameTables tables others := by
  obtain ⟨reached', reached⟩ := reached_congr levels terms
  have arrangedLevels := built'.levels
  rw [reached'] at arrangedLevels
  have somewhere : ArrangedSomewhere sha256 names (reachedTerms requests) tables.nodeIds.terms :=
    built.terms.imp fun entry described => ⟨heap, described⟩
  have somewhere' : ArrangedSomewhere sha256 names (reachedTerms requests) others.nodeIds.terms :=
    reached ▸ built'.terms.imp fun entry described => ⟨heap', described⟩
  have keyed : ∀ {a b : CollectedNode CanonTerm},
      (∃ heap, DescribesTerm sha256 names heap (reachedTerms requests) a) →
      (∃ heap, DescribesTerm sha256 names heap (reachedTerms requests) b) →
      a.node.expr = b.node.expr → a.height = b.height ∧ a.key = b.key ∧ a.hash = b.hash := by
    rintro a b ⟨first, left⟩ ⟨second, right⟩ same
    exact terms_keyed left right same
  obtain ⟨levelHashes, levelViews⟩ := views_of_summaries
    (arranged_unique arrangedLevels built.levels fun a b => levels_keyed)
  obtain ⟨termHashes, termViews⟩ := views_of_summaries
    (arranged_unique somewhere' somewhere fun a b => keyed)
  have levelIds : ∀ level id id', HasId (·) others.nodeIds.levels level id →
      HasId (·) tables.nodeIds.levels level id' → id = id' := fun level id id' left right =>
    hasId_unique arrangedLevels (fun a b at_a at_b same => (levels_keyed at_a at_b same).2.2)
      levelViews left right
  have termIds : ∀ expr id id', HasId CanonTerm.expr others.nodeIds.terms expr id →
      HasId CanonTerm.expr tables.nodeIds.terms expr id' → id = id' := fun expr id id' left right =>
    hasId_unique somewhere' (fun a b at_a at_b same => (keyed at_a at_b same).2.2)
      termViews left right
  refine ⟨?_, ?_, ?_, ?_⟩
  · exact @table_eq_of_entries _ _ _ (·) _ _ _ _ _ _ built'.levelTable built.levelTable levelViews
      fun level node node' => levelNodeFor_unique levelIds
  · rw [built'.levelHashes, built.levelHashes, levelHashes]
  · exact table_eq_of_entries built'.termTable built.termTable termViews
      fun expr node node' => termNodeFor_unique levelIds termIds
  · rw [built'.termHashes, built.termHashes, termHashes]

end Faithful

end NpaCore.Wire
