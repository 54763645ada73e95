import NpaCore.Lib.ForwardPass
import NpaCore.Syntax.Renormalize
import NpaCore.Wire.Decoder

/-!
# The trees of a certificate's tables

The level table and the term table store levels and expressions with shared parts. A node
stands for the tree that it unfolds to; this is what the checks of the tables are about,
and none of them builds it.

## Main results

`unfolds_iff`: the tables unfold exactly when every node refers to earlier nodes, and the
levels of the terms exist.
-/

namespace NpaCore.Wire

open NpaCore.Result NpaCore.ForwardPass

/-- A level of the table, with the ids of its parameter names. -/
abbrev TableLevel := NpaCore.Level Id

/-- An expression of the table. Binder names are not stored. -/
abbrev TableExpr := NpaCore.Expr GlobalRef Id Unit

/-- `checked_child`: `values.get(index)`, or a decode error. -/
def checkedChild {α : Type} (values : List α) (index : Id) : CertResult α :=
  Result.okOr values[index.toNat]? .decodeError

theorem checkedChild_eq_ok {α : Type} {values : List α} {index : Id} {value : α} :
    checkedChild values index = .ok value ↔ values[index.toNat]? = some value := okOr_eq_ok

theorem checkedChild_isOk_iff {α : Type} {values : List α} {index : Id} :
    (∃ value, checkedChild values index = .ok value) ↔ index.toNat < values.length := by
  simp only [checkedChild_eq_ok, List.getElem?_eq_some_iff]
  constructor
  · rintro ⟨_, bound, _⟩
    exact bound
  · exact fun bound => ⟨_, bound, rfl⟩

theorem checkedOne_isOk_iff {α β : Type} {values : List α} {index : Id} {f : α → β} :
    (∃ result, (do let value ← checkedChild values index; .ok (f value)) = Except.ok result) ↔
      ∀ child ∈ [index.toNat], child < values.length := by
  simp only [bind_eq_ok, List.mem_singleton, forall_eq, ← checkedChild_isOk_iff, Except.ok.injEq]
  constructor
  · rintro ⟨_, value, found, _⟩
    exact ⟨value, found⟩
  · rintro ⟨value, found⟩
    exact ⟨_, value, found, rfl⟩

theorem checkedPair_isOk_iff {α β : Type} {values : List α} {lhs rhs : Id} {f : α → α → β} :
    (∃ result, (do
        let left ← checkedChild values lhs
        let right ← checkedChild values rhs
        .ok (f left right)) = Except.ok result) ↔
      ∀ child ∈ [lhs.toNat, rhs.toNat], child < values.length := by
  simp only [bind_eq_ok, List.forall_mem_cons, List.not_mem_nil, false_implies, implies_true,
    and_true, ← checkedChild_isOk_iff, Except.ok.injEq]
  constructor
  · rintro ⟨_, left, leftFound, right, rightFound, _⟩
    exact ⟨⟨left, leftFound⟩, right, rightFound⟩
  · rintro ⟨⟨left, leftFound⟩, right, rightFound⟩
    exact ⟨_, left, leftFound, right, rightFound, rfl⟩

/-- Children of related lists are related. -/
theorem checkedChild_matches {α β : Type} {R : α → β → Prop} {xs : List α} {ys : List β}
    (related : List.Forall₂ R xs ys) (index : Id) :
    Matches R (checkedChild xs index) (checkedChild ys index) := by
  apply matches_okOr
  by_cases bound : index.toNat < xs.length
  · have bound' : index.toNat < ys.length := related.length_eq ▸ bound
    rw [List.getElem?_eq_getElem bound, List.getElem?_eq_getElem bound']
    exact .some (related.get bound bound')
  · have bound' : ¬ index.toNat < ys.length := related.length_eq ▸ bound
    rw [List.getElem?_eq_none (Nat.le_of_not_lt bound),
      List.getElem?_eq_none (Nat.le_of_not_lt bound')]
    exact .none

theorem collect_checkedChild_matches {α β : Type} {R : α → β → Prop} {xs : List α} {ys : List β}
    (related : List.Forall₂ R xs ys) (ids : List Id) :
    Matches (List.Forall₂ R) (Result.collect ids (checkedChild xs))
      (Result.collect ids (checkedChild ys)) :=
  matches_collect fun id _ => checkedChild_matches related id

/-! ### The nodes that a node refers to -/

def LevelNode.levels : LevelNode → List Id
  | .zero | .param _ => []
  | .succ inner => [inner]
  | .max lhs rhs | .imax lhs rhs => [lhs, rhs]

def TermNode.terms : TermNode → List Id
  | .sort _ | .bvar _ | .const _ _ => []
  | .app fn arg => [fn, arg]
  | .lam ty body | .pi ty body => [ty, body]

def TermNode.levels : TermNode → List Id
  | .sort level => [level]
  | .const _ levels => levels
  | _ => []

def LevelNode.children (node : LevelNode) : List Nat := node.levels.map UInt64.toNat

def TermNode.children (node : TermNode) : List Nat := node.terms.map UInt64.toNat

/-- Levels refer to earlier levels, and terms to earlier terms and to levels that exist. -/
structure ModuleCert.Topological (cert : ModuleCert) : Prop where
  levels : Ordered LevelNode.children cert.levelTable
  terms : Ordered TermNode.children cert.termTable
  termLevels : ∀ node ∈ cert.termTable, ∀ level ∈ node.levels,
    level.toNat < cert.levelTable.length

/-! ### Unfolding -/

def unfoldLevelNode (done : List TableLevel) : LevelNode → CertResult TableLevel
  | .zero => .ok .zero
  | .succ inner => do
    let inner ← checkedChild done inner
    .ok (.succ inner)
  | .max lhs rhs => do
    let lhs ← checkedChild done lhs
    let rhs ← checkedChild done rhs
    .ok (.max lhs rhs)
  | .imax lhs rhs => do
    let lhs ← checkedChild done lhs
    let rhs ← checkedChild done rhs
    .ok (.imax lhs rhs)
  | .param name => .ok (.param name)

def unfoldTermNode (levels : List TableLevel) (done : List TableExpr) :
    TermNode → CertResult TableExpr
  | .sort level => do
    let level ← checkedChild levels level
    .ok (.sort level)
  | .bvar index => .ok (.bvar index.toNat)
  | .const globalRef ids => do
    let args ← Result.collect ids (checkedChild levels)
    .ok (.const globalRef args)
  | .app fn arg => do
    let fn ← checkedChild done fn
    let arg ← checkedChild done arg
    .ok (.app fn arg)
  | .lam ty body => do
    let ty ← checkedChild done ty
    let body ← checkedChild done body
    .ok (.lam () ty body)
  | .pi ty body => do
    let ty ← checkedChild done ty
    let body ← checkedChild done body
    .ok (.pi () ty body)

/-- The trees of a level table. -/
def unfoldLevels (table : List LevelNode) : CertResult (List TableLevel) :=
  run unfoldLevelNode [] table

/-- The trees of a term table over the trees of the levels. -/
def unfoldTerms (levels : List TableLevel) (table : List TermNode) : CertResult (List TableExpr) :=
  run (unfoldTermNode levels) [] table

/-- The tables of the certificate unfold to these trees. -/
structure ModuleCert.Unfolds (cert : ModuleCert) (levels : List TableLevel)
    (terms : List TableExpr) : Prop where
  levelTable : unfoldLevels cert.levelTable = .ok levels
  termTable : unfoldTerms levels cert.termTable = .ok terms

/-! ### Which tables unfold -/

theorem unfoldLevelNode_isOk_iff (node : LevelNode) (done : List TableLevel) :
    (∃ level, unfoldLevelNode done node = .ok level) ↔
      ∀ child ∈ node.children, child < done.length := by
  cases node with
  | zero => simp [unfoldLevelNode, LevelNode.children, LevelNode.levels]
  | param name => simp [unfoldLevelNode, LevelNode.children, LevelNode.levels]
  | succ inner => exact checkedOne_isOk_iff
  | max lhs rhs | imax lhs rhs => exact checkedPair_isOk_iff

theorem collect_checkedChild_isOk_iff {α : Type} {values : List α} {ids : List Id} :
    (∃ found, Result.collect ids (checkedChild values) = .ok found) ↔
      ∀ id ∈ ids, id.toNat < values.length := by
  induction ids with
  | nil => simp [Result.collect]
  | cons id ids ih =>
    rw [List.forall_mem_cons, ← ih, ← checkedChild_isOk_iff]
    simp only [Result.collect, bind_eq_ok, Except.ok.injEq]
    constructor
    · rintro ⟨_, value, found, others, othersFound, _⟩
      exact ⟨⟨value, found⟩, others, othersFound⟩
    · rintro ⟨⟨value, found⟩, others, othersFound⟩
      exact ⟨_, value, found, others, othersFound, rfl⟩

variable {levels : List TableLevel}

theorem unfoldTermNode_isOk_iff {node : TermNode}
    (levelsFound : ∀ level ∈ node.levels, level.toNat < levels.length) (done : List TableExpr) :
    (∃ term, unfoldTermNode levels done node = .ok term) ↔
      ∀ child ∈ node.children, child < done.length := by
  cases node with
  | sort level =>
    obtain ⟨found, at_found⟩ := checkedChild_isOk_iff.mpr (levelsFound level (by simp [TermNode.levels]))
    simp [unfoldTermNode, TermNode.children, TermNode.terms, bind_eq_ok, at_found]
  | bvar index => simp [unfoldTermNode, TermNode.children, TermNode.terms]
  | const globalRef ids =>
    have found := collect_checkedChild_isOk_iff.mpr levelsFound
    obtain ⟨found, at_found⟩ := found
    simp only [TermNode.levels] at at_found
    simp [unfoldTermNode, TermNode.children, TermNode.terms, bind_eq_ok, at_found]
  | app first second | lam first second | pi first second => exact checkedPair_isOk_iff

theorem unfoldTermNode_levels {done : List TableExpr} {node : TermNode}
    {term : TableExpr} (h : unfoldTermNode levels done node = .ok term) :
    ∀ level ∈ node.levels, level.toNat < levels.length := by
  cases node with
  | sort level =>
    obtain ⟨found, at_found, _⟩ := bind_eq_ok.mp h
    simpa [TermNode.levels] using checkedChild_isOk_iff.mp ⟨found, at_found⟩
  | const globalRef ids =>
    obtain ⟨found, at_found, _⟩ := bind_eq_ok.mp h
    exact collect_checkedChild_isOk_iff.mp ⟨found, at_found⟩
  | bvar _ | app _ _ | lam _ _ | pi _ _ => simp [TermNode.levels]

theorem unfoldLevels_isOk_iff {table : List LevelNode} :
    (∃ levels, unfoldLevels table = .ok levels) ↔ Ordered LevelNode.children table := by
  rw [ordered_iff_from]
  exact run_isOk_iff fun node _ done => unfoldLevelNode_isOk_iff node done

theorem unfoldTerms_isOk_iff {table : List TermNode}
    (levelsFound : ∀ node ∈ table, ∀ level ∈ node.levels, level.toNat < levels.length) :
    (∃ terms, unfoldTerms levels table = .ok terms) ↔ Ordered TermNode.children table := by
  rw [ordered_iff_from]
  exact run_isOk_iff fun node mem done => unfoldTermNode_isOk_iff (levelsFound node mem) done

theorem unfoldTerms_levels {table : List TermNode}
    {terms : List TableExpr} (h : unfoldTerms levels table = .ok terms) :
    ∀ node ∈ table, ∀ level ∈ node.levels, level.toNat < levels.length := by
  have checks : ∀ done node term, unfoldTermNode levels done node = .ok term →
      ∀ level ∈ node.levels, level.toNat < levels.length :=
    fun _ _ _ => unfoldTermNode_levels
  exact run_checks checks h

theorem unfoldLevels_length {table : List LevelNode}
    (h : unfoldLevels table = .ok levels) : levels.length = table.length := by
  simpa using run_length h

theorem unfolds_iff {cert : ModuleCert} :
    (∃ levels terms, cert.Unfolds levels terms) ↔ cert.Topological := by
  constructor
  · rintro ⟨levels, terms, unfolds⟩
    have termLevels := unfoldTerms_levels unfolds.termTable
    refine ⟨unfoldLevels_isOk_iff.mp ⟨levels, unfolds.levelTable⟩,
      (unfoldTerms_isOk_iff termLevels).mp ⟨terms, unfolds.termTable⟩, ?_⟩
    rw [← unfoldLevels_length unfolds.levelTable]
    exact termLevels
  · intro topological
    obtain ⟨levels, at_levels⟩ := unfoldLevels_isOk_iff.mpr topological.levels
    have termLevels := topological.termLevels
    rw [← unfoldLevels_length at_levels] at termLevels
    obtain ⟨terms, at_terms⟩ := (unfoldTerms_isOk_iff termLevels).mpr topological.terms
    exact ⟨levels, terms, at_levels, at_terms⟩

end NpaCore.Wire
