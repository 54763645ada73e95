import NpaCore.Lib.Run
import NpaCore.Syntax.LevelLoops
import NpaCore.Certificate.Module

/-!
# Canonical terms and their memo

`canonicalize_expr` and `canonicalize_level` of `npa-cert/src/canonical.rs`: the terms of a
declaration with names replaced by ids and constants by references. The nodes of a term are
shared, and a memo for the whole build maps the address of a node to its canonical term. An
entry keeps its node alive, so that the address stays the address of that node.

The loop over levels is equal to a recursion, `canonicalizeLevel_eq`; the loop over nodes is
written as it is, beside the plain recursion `canonTerm`.
-/

namespace NpaCore.Certificate.Canonical

open NpaCore.Level (LevelFrame)
open NpaCore.StackFold (Frame)

/-! ### Canonical terms -/

inductive GlobalRef where
  | builtin (name : Nat) (declInterfaceHash : Hash)
  | imported (importIndex name : Nat) (declInterfaceHash : Hash)
  | local (declIndex : Nat)
  | localGenerated (declIndex name : Nat)
  deriving DecidableEq, Repr, Inhabited

/-- `CanonLevel`: parameters are ids of names. -/
abbrev CanonLevel := NpaCore.Level Nat

/-- `CanonTerm`, which keeps no display names. -/
abbrev CanonTerm := NpaCore.Expr GlobalRef Nat Unit

/-! ### References -/

/-- `ResolvedReferenceBinding`, with what `resolve_const` reads of it. -/
inductive ResolvedReferenceBinding where
  | localDeclaration (declIndex : Nat)
  | localGenerated (ownerDeclIndex : Nat)
  | importedExport (importIndex : Nat) (declInterfaceHash : Hash)
  | builtin (declInterfaceHash : Hash)
  deriving DecidableEq, Repr

/-- What the resolvers of one build share. -/
structure Build where
  referenceBindings : List (String × ResolvedReferenceBinding)
  nameTable : List String

/-- `Resolver`, without the memo. -/
structure Resolver extends Build where
  currentDeclIndex : Nat
  allowSelf : Bool

namespace Resolver

variable (resolver : Resolver)

def nameId (name : String) : CertResult Nat :=
  Result.okOr (resolver.nameTable.idxOf? name) (.unknownDependency name)

def resolveLocal (name : String) (declIndex : Nat) : CertResult Unit :=
  Result.ensure (declIndex < resolver.currentDeclIndex ||
    (resolver.allowSelf && declIndex == resolver.currentDeclIndex)) (.dependencyCycle name)

def resolveConst (name : String) : CertResult GlobalRef := do
  let binding ← Result.okOr (resolver.referenceBindings.lookup name) (.unknownDependency name)
  match binding with
  | .localDeclaration declIndex =>
    resolver.resolveLocal name declIndex
    .ok (.local declIndex)
  | .localGenerated ownerDeclIndex =>
    resolver.resolveLocal name ownerDeclIndex
    let id ← resolver.nameId name
    .ok (.localGenerated ownerDeclIndex id)
  | .importedExport importIndex declInterfaceHash =>
    let id ← resolver.nameId name
    .ok (.imported importIndex id declInterfaceHash)
  | .builtin declInterfaceHash =>
    let id ← resolver.nameId name
    .ok (.builtin id declInterfaceHash)

end Resolver

/-! ### Levels -/

section Levels

variable (resolver : Resolver)

/-- `values.pop().ok_or(CertError::DecodeError)?`, with the stack that is left. -/
def popCanon : List CanonLevel → CertResult (CanonLevel × List CanonLevel)
  | [] => .error .decodeError
  | value :: values => .ok (value, values)

/-- What the loop does with a frame that waited. The right operand is on top. -/
def buildCanonLevel (frame : LevelFrame) (values : List CanonLevel) :
    CertResult (List CanonLevel) :=
  match frame with
  | .succ => do
    let (inner, values) ← popCanon values
    .ok (.succ inner :: values)
  | .max => do
    let (rhs, values) ← popCanon values
    let (lhs, values) ← popCanon values
    .ok (.max lhs rhs :: values)
  | .imax => do
    let (rhs, values) ← popCanon values
    let (lhs, values) ← popCanon values
    .ok (.imax lhs rhs :: values)

/-- The loop of `canonicalize_level`, from the top of both stacks. -/
def canonLevelPending : List (Frame Kernel.Level LevelFrame) → List CanonLevel →
    CertResult (List CanonLevel)
  | [], values => .ok values
  | .visit .zero :: pending, values => canonLevelPending pending (.zero :: values)
  | .visit (.param name) :: pending, values => do
    let id ← resolver.nameId name
    canonLevelPending pending (.param id :: values)
  | .visit (.succ inner) :: pending, values =>
    canonLevelPending (.visit inner :: .build .succ :: pending) values
  | .visit (.max lhs rhs) :: pending, values =>
    canonLevelPending (.visit lhs :: .visit rhs :: .build .max :: pending) values
  | .visit (.imax lhs rhs) :: pending, values =>
    canonLevelPending (.visit lhs :: .visit rhs :: .build .imax :: pending) values
  | .build frame :: pending, values => do
    let values ← buildCanonLevel frame values
    canonLevelPending pending values
  termination_by pending => StackFold.weight Level.size pending
  decreasing_by
    all_goals
      simp only [StackFold.weight, Frame.weight, List.map_cons, List.sum_cons, Level.size]
      omega

def canonicalizeLevel (level : Kernel.Level) : CertResult CanonLevel := do
  let values ← canonLevelPending resolver [.visit level.normalizeLevel] []
  let (value, _) ← popCanon values
  .ok value

/-- The recursion that the loop unfolds: every name is replaced by its id. -/
def replaceNames : Kernel.Level → CertResult CanonLevel
  | .zero => .ok .zero
  | .succ inner => do
    let inner ← replaceNames inner
    .ok (.succ inner)
  | .max lhs rhs => do
    let lhs ← replaceNames lhs
    let rhs ← replaceNames rhs
    .ok (.max lhs rhs)
  | .imax lhs rhs => do
    let lhs ← replaceNames lhs
    let rhs ← replaceNames rhs
    .ok (.imax lhs rhs)
  | .param name => do
    let id ← resolver.nameId name
    .ok (.param id)

/-- A level is visited before the frames below it, and its canonical level is left on top. -/
theorem canonLevelPending_visit (level : Kernel.Level)
    (pending : List (Frame Kernel.Level LevelFrame)) (values : List CanonLevel) :
    canonLevelPending resolver (.visit level :: pending) values =
      replaceNames resolver level >>= fun value =>
        canonLevelPending resolver pending (value :: values) := by
  induction level generalizing pending values with
  | zero =>
    rw [canonLevelPending]
    rfl
  | param name =>
    rw [canonLevelPending, replaceNames]
    cases resolver.nameId name <;> rfl
  | succ inner ih =>
    rw [canonLevelPending, ih, replaceNames]
    cases replaceNames resolver inner with
    | error e => rfl
    | ok value =>
      change canonLevelPending resolver (.build .succ :: pending) (value :: values) = _
      rw [canonLevelPending]
      rfl
  | max lhs rhs ihl ihr =>
    rw [canonLevelPending, ihl, replaceNames]
    cases replaceNames resolver lhs with
    | error e => rfl
    | ok l =>
      change canonLevelPending resolver (.visit rhs :: .build .max :: pending) (l :: values) = _
      rw [ihr]
      cases replaceNames resolver rhs with
      | error e => rfl
      | ok r =>
        change canonLevelPending resolver (.build .max :: pending) (r :: l :: values) = _
        rw [canonLevelPending]
        rfl
  | imax lhs rhs ihl ihr =>
    rw [canonLevelPending, ihl, replaceNames]
    cases replaceNames resolver lhs with
    | error e => rfl
    | ok l =>
      change canonLevelPending resolver (.visit rhs :: .build .imax :: pending) (l :: values) = _
      rw [ihr]
      cases replaceNames resolver rhs with
      | error e => rfl
      | ok r =>
        change canonLevelPending resolver (.build .imax :: pending) (r :: l :: values) = _
        rw [canonLevelPending]
        rfl

theorem canonicalizeLevel_eq (level : Kernel.Level) :
    canonicalizeLevel resolver level = replaceNames resolver level.normalizeLevel := by
  rw [canonicalizeLevel, canonLevelPending_visit]
  cases replaceNames resolver level.normalizeLevel with
  | error e => rfl
  | ok value =>
    change canonLevelPending resolver [] [value] >>= _ = _
    rw [canonLevelPending]
    rfl

/-- A canonical level with its ids read in the name table. -/
def readNames (nameTable : List String) : CanonLevel → Kernel.Level
  | .zero => .zero
  | .succ inner => .succ (readNames nameTable inner)
  | .max lhs rhs => .max (readNames nameTable lhs) (readNames nameTable rhs)
  | .imax lhs rhs => .imax (readNames nameTable lhs) (readNames nameTable rhs)
  | .param id => .param (nameTable.getD id "")

theorem readNames_eval (nameTable : List String) (ρ : String → Nat) (canon : CanonLevel) :
    (readNames nameTable canon).eval ρ = canon.eval fun id => ρ (nameTable.getD id "") := by
  induction canon with
  | zero | param => rfl
  | succ inner ih => simp only [readNames, Level.eval, ih]
  | max lhs rhs ihl ihr | imax lhs rhs ihl ihr => simp only [readNames, Level.eval, ihl, ihr]

variable {resolver}

theorem getD_of_nameId {name : String} {id : Nat} (h : resolver.nameId name = .ok id) :
    resolver.nameTable.getD id "" = name := by
  have found := Result.okOr_eq_ok.mp h
  obtain ⟨bound, same, _⟩ := List.idxOf?_eq_some_iff.mp found
  rw [List.getD_eq_getElem?_getD, List.getElem?_eq_getElem bound]
  exact same

theorem readNames_replaceNames {level : Kernel.Level} {canon : CanonLevel}
    (h : replaceNames resolver level = .ok canon) : readNames resolver.nameTable canon = level := by
  induction level generalizing canon with
  | zero =>
    cases h
    rfl
  | param name =>
    obtain ⟨id, found, rest⟩ := Result.bind_eq_ok.mp h
    cases rest
    exact congrArg Level.param (getD_of_nameId found)
  | succ inner ih =>
    obtain ⟨value, found, rest⟩ := Result.bind_eq_ok.mp h
    cases rest
    exact congrArg Level.succ (ih found)
  | max lhs rhs ihl ihr | imax lhs rhs ihl ihr =>
    obtain ⟨l, left, h⟩ := Result.bind_eq_ok.mp h
    obtain ⟨r, right, rest⟩ := Result.bind_eq_ok.mp h
    cases rest
    rw [readNames, ihl left, ihr right]

theorem canonicalizeLevel_eval {level : Kernel.Level} {canon : CanonLevel}
    (h : canonicalizeLevel resolver level = .ok canon) (ρ : String → Nat) :
    (canon.eval fun id => ρ (resolver.nameTable.getD id "")) = level.eval ρ := by
  rw [canonicalizeLevel_eq] at h
  rw [← readNames_eval, readNames_replaceNames h, Level.normalizeLevel_eval]

theorem canonicalizeLevel_idempotent {level : Kernel.Level} {canon : CanonLevel}
    (h : canonicalizeLevel resolver level = .ok canon) :
    canonicalizeLevel resolver (readNames resolver.nameTable canon) = .ok canon := by
  rw [canonicalizeLevel_eq] at h ⊢
  rw [readNames_replaceNames h, Level.normalizeLevel_normal, h]

end Levels

/-! ### Terms -/

/-- The plain recursion: `canonicalize_expr` where the memo is always empty. -/
def canonTerm (resolver : Resolver) : Kernel.Expr → CertResult CanonTerm
  | .sort level => do
    let level ← canonicalizeLevel resolver level
    .ok (.sort level)
  | .bvar index => .ok (.bvar index)
  | .const name levels => do
    let globalRef ← resolver.resolveConst name
    let levels ← Result.collect levels (canonicalizeLevel resolver)
    .ok (.const globalRef levels)
  | .app fn arg => do
    let fn ← canonTerm resolver fn
    let arg ← canonTerm resolver arg
    .ok (.app fn arg)
  | .lam _ ty body => do
    let ty ← canonTerm resolver ty
    let body ← canonTerm resolver body
    .ok (.lam () ty body)
  | .pi _ ty body => do
    let ty ← canonTerm resolver ty
    let body ← canonTerm resolver body
    .ok (.pi () ty body)

/-- An expression as it lies in memory: below a node are the addresses of its parts. -/
inductive Node where
  | sort (level : Kernel.Level)
  | bvar (index : Nat)
  | const (name : String) (levels : List Kernel.Level)
  | app (fnAddr : Nat) (fn : Node) (argAddr : Nat) (arg : Node)
  | lam (binder : String) (tyAddr : Nat) (ty : Node) (bodyAddr : Nat) (body : Node)
  | pi (binder : String) (tyAddr : Nat) (ty : Node) (bodyAddr : Nat) (body : Node)
  deriving DecidableEq, Repr

/-- `Arc<Expr>`: an address and what is there. -/
abbrev Arc := Nat × Node

namespace Node

/-- The expression that a node is the root of. -/
def expr : Node → Kernel.Expr
  | sort level => .sort level
  | bvar index => .bvar index
  | const name levels => .const name levels
  | app _ fn _ arg => .app fn.expr arg.expr
  | lam binder _ ty _ body => .lam binder ty.expr body.expr
  | pi binder _ ty _ body => .pi binder ty.expr body.expr

/-- The parts of a node, from left to right. -/
def parts : Node → List Arc
  | sort _ | bvar _ | const _ _ => []
  | app fnAddr fn argAddr arg => [(fnAddr, fn), (argAddr, arg)]
  | lam _ tyAddr ty bodyAddr body | pi _ tyAddr ty bodyAddr body => [(tyAddr, ty), (bodyAddr, body)]

/-- A bound on the turns that the loop takes on a node. -/
def turns : Node → Nat
  | sort _ | bvar _ | const _ _ => 4
  | app _ fn _ arg => 2 * (fn.turns + arg.turns) + 4
  | lam _ _ ty _ body | pi _ _ ty _ body => 2 * (ty.turns + body.turns) + 4

/-- The turns on the parts of a node, with one for the node. -/
def partTurns (node : Node) : Nat := (node.parts.map fun arc => arc.2.turns).sum

theorem turns_eq (node : Node) : node.turns = 2 * node.partTurns + 4 := by
  cases node <;> simp [turns, partTurns, parts]

end Node

/-- `CanonTermMemo`: the entry of an address anchors the node that is there. -/
def CanonTermMemo := Nat → Option (Node × CanonTerm)

namespace CanonTermMemo

/-- The memo at the start of a build. -/
def empty : CanonTermMemo := fun _ => none

def insert (memo : CanonTermMemo) (arc : Arc) (canon : CanonTerm) : CanonTermMemo := fun key =>
  if key = arc.1 then some (arc.2, canon) else memo key

end CanonTermMemo

/-- A computation that reads and extends the memo. -/
abbrev Canonicalize := Run CanonTermMemo CertError

/-- The turns that are left in the loop. -/
def pendingTurns (pending : List (Arc × Bool)) : Nat :=
  (pending.map fun frame =>
    if frame.2 then frame.1.2.partTurns + 3 else frame.1.2.turns).sum

@[simp] theorem pendingTurns_enter (arc : Arc) (pending : List (Arc × Bool)) :
    pendingTurns ((arc, false) :: pending) = arc.2.turns + pendingTurns pending := rfl

@[simp] theorem pendingTurns_exit (arc : Arc) (pending : List (Arc × Bool)) :
    pendingTurns ((arc, true) :: pending) = arc.2.partTurns + 3 + pendingTurns pending := rfl

theorem pendingTurns_rest (arc : Arc) (exiting : Bool) (pending : List (Arc × Bool)) :
    pendingTurns pending < pendingTurns ((arc, exiting) :: pending) := by
  have enter := arc.2.turns_eq
  cases exiting <;> simp
  omega

theorem pendingTurns_visit (arc : Arc) (pending : List (Arc × Bool)) :
    pendingTurns (arc.2.parts.map (·, false) ++ (arc, true) :: pending) <
      pendingTurns ((arc, false) :: pending) := by
  have opened : pendingTurns (arc.2.parts.map (·, false)) = arc.2.partTurns := by
    rw [pendingTurns, List.map_map, Node.partTurns]
    rfl
  have split : pendingTurns (arc.2.parts.map (·, false) ++ (arc, true) :: pending) =
      pendingTurns (arc.2.parts.map (·, false)) + pendingTurns ((arc, true) :: pending) := by
    simp only [pendingTurns, List.map_append, List.sum_append]
  rw [split, opened, pendingTurns_exit, pendingTurns_enter, Node.turns_eq]
  omega

mutual

/-- `canonicalize_expr`. -/
def canonicalizeExpr (resolver : Resolver) : Node → Canonicalize CanonTerm
  | .sort level => do
    let level ← Run.lift (canonicalizeLevel resolver level)
    pure (.sort level)
  | .bvar index => pure (.bvar index)
  | .const name levels => do
    let globalRef ← Run.lift (resolver.resolveConst name)
    let levels ← Run.lift (Result.collect levels (canonicalizeLevel resolver))
    pure (.const globalRef levels)
  | .app fnAddr fn argAddr arg => do
    let fn ← canonicalizeExprRc resolver (fnAddr, fn)
    let arg ← canonicalizeExprRc resolver (argAddr, arg)
    pure (.app fn arg)
  | .lam _ tyAddr ty bodyAddr body => do
    let ty ← canonicalizeExprRc resolver (tyAddr, ty)
    let body ← canonicalizeExprRc resolver (bodyAddr, body)
    pure (.lam () ty body)
  | .pi _ tyAddr ty bodyAddr body => do
    let ty ← canonicalizeExprRc resolver (tyAddr, ty)
    let body ← canonicalizeExprRc resolver (bodyAddr, body)
    pure (.pi () ty body)
  termination_by node => node.partTurns + 2
  decreasing_by all_goals (simp [Node.partTurns, Node.parts]; try omega)

/-- `canonicalize_expr_rc`. -/
def canonicalizeExprRc (resolver : Resolver) (arc : Arc) : Canonicalize CanonTerm := do
  let memo ← Run.get
  match memo arc.1 with
  | some (_, canon) => pure canon
  | none =>
    canonicalizePending resolver [(arc, false)]
    let memo ← Run.get
    Run.lift (Result.okOr ((memo arc.1).map Prod.snd) .decodeError)
  termination_by arc.2.turns + 1
  decreasing_by all_goals simp [pendingTurns]

/-- The loop of `canonicalize_expr_rc`, from the top of the stack. -/
def canonicalizePending (resolver : Resolver) : List (Arc × Bool) → Canonicalize Unit
  | [] => pure ()
  | (arc, exiting) :: pending => do
    let memo ← Run.get
    if (memo arc.1).isSome then canonicalizePending resolver pending
    else if exiting then
      let canon ← canonicalizeExpr resolver arc.2
      Run.modify (·.insert arc canon)
      canonicalizePending resolver pending
    else
      canonicalizePending resolver (arc.2.parts.map (·, false) ++ (arc, true) :: pending)
  termination_by pending => pendingTurns pending
  decreasing_by
    · exact pendingTurns_rest arc exiting pending
    · subst exiting
      rw [pendingTurns_exit]
      omega
    · exact pendingTurns_rest arc exiting pending
    · rw [Bool.not_eq_true] at *
      subst exiting
      exact pendingTurns_visit arc pending

end

end NpaCore.Certificate.Canonical
