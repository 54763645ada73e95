import NpaCore.Lib.Run
import NpaCore.Kernel.Decl

/-!
# Operation state: fuel and memo

The mutable state of one kernel operation: the two fuel counters and, in the
ephemeral mode of `memo.rs`, the memo of weak-head and successful conversion
results. The memo identifies terms and contexts by the address of a retained
`Arc`, and it stops recording when a capacity is reached. Addresses and capacity
are not visible in the terms, so a `Layout` decides for each lookup whether the
term is eligible and which entry has its address, and for each insertion whether
it fits. An entry is found only under the key it was stored with, since a
retained address keeps its content.
-/

namespace NpaCore.Kernel

/-- `MemoExprOrigin`. -/
inductive MemoExprOrigin where
  | borrowed
  | fresh
  | retained
  deriving DecidableEq, Repr

structure WhnfMemoKey where
  expr : Expr
  context : Ctx
  parameters : List String
  fuelDomain : ResourceLimitKind
  deriving DecidableEq, Repr

structure WhnfMemoEntry where
  key : WhnfMemoKey
  result : Expr
  fuelCost : Nat
  deriving DecidableEq, Repr

structure DefeqMemoKey where
  lhs : Expr
  rhs : Expr
  context : Ctx
  parameters : List String
  deriving DecidableEq, Repr

structure DefeqMemoEntry where
  key : DefeqMemoKey
  fuelCost : Nat
  deriving DecidableEq, Repr

/-- `KernelOperationMemo`; the clock numbers the lookups and insertions. -/
structure Memo where
  clock : Nat
  whnf : List WhnfMemoEntry
  defeq : List DefeqMemoEntry
  deriving DecidableEq, Repr

/-- What the addresses of a lookup amount to. -/
inductive Identity where
  | ineligible
  | miss
  | entry (index : Nat)
  deriving DecidableEq, Repr

structure Layout where
  identity : Nat → Identity
  retains : Nat → Bool

/-- The layouts of the operations, by the context and the terms they are called with. -/
abbrev Allocator := Ctx → List Expr → Layout

/-- The layouts without any reuse, which only matter in the ephemeral mode. -/
def noReuse : Allocator := fun _ _ => ⟨fun _ => .ineligible, fun _ => false⟩

structure Session where
  memo : Option Memo
  whnfFuel : Nat
  conversionFuel : Nat
  deriving DecidableEq, Repr

abbrev Op (α : Type) := Run Session Error α

namespace Session

def fuel (session : Session) : ResourceLimitKind → Nat
  | .whnf => session.whnfFuel
  | _ => session.conversionFuel

def setFuel (session : Session) (kind : ResourceLimitKind) (fuel : Nat) : Session :=
  match kind with
  | .whnf => { session with whnfFuel := fuel }
  | _ => { session with conversionFuel := fuel }

@[simp] theorem setFuel_memo (session : Session) (kind : ResourceLimitKind) (fuel : Nat) :
    (session.setFuel kind fuel).memo = session.memo := by
  cases kind <;> rfl

end Session

/-- `KernelOperationState::new`, absent when the options need no memo. The repetition
    probe runs the memo code too, but in the `Off` mode every lookup is ineligible. -/
def KernelExecutionOptions.newMemo : KernelExecutionOptions → Option Memo
  | .ephemeralMemo => some ⟨0, [], []⟩
  | _ => none

def spendFuel (kind : ResourceLimitKind) : Op Unit := do
  let session ← Run.get
  if session.fuel kind = 0 then Run.fail (.resourceLimit kind)
  else Run.modify fun s => s.setFuel kind (s.fuel kind - 1)

def replayMemoFuel (kind : ResourceLimitKind) (fuelCost : Nat) : Op Unit := do
  let session ← Run.get
  if session.fuel kind < fuelCost then do
    Run.modify fun s => s.setFuel kind 0
    Run.fail (.resourceLimit kind)
  else Run.modify fun s => s.setFuel kind (s.fuel kind - fuelCost)

/-- The identity of a lookup, which also advances the clock. -/
def memoIdentity (layout : Layout) (eligible : Bool) : Op (Identity × Memo) := do
  let session ← Run.get
  match session.memo with
  | none => pure (.ineligible, ⟨0, [], []⟩)
  | some memo =>
    if eligible then do
      Run.modify fun s => { s with memo := some { memo with clock := memo.clock + 1 } }
      pure (layout.identity memo.clock, memo)
    else pure (.ineligible, memo)

/-- The three answers of a lookup. -/
inductive MemoLookup (α : Type) where
  | ineligible
  | miss
  | hit (value : α)

def whnfLookup (layout : Layout) (origin : MemoExprOrigin) (key : WhnfMemoKey) :
    Op (MemoLookup WhnfMemoEntry) := do
  let (identity, memo) ← memoIdentity layout (origin = .retained)
  match identity with
  | .ineligible => pure .ineligible
  | .miss => pure .miss
  | .entry index =>
    match memo.whnf[index]? with
    | none => pure .miss
    | some entry => if entry.key = key then pure (.hit entry) else pure .miss

def defeqLookup (layout : Layout) (lhsOrigin rhsOrigin : MemoExprOrigin) (key : DefeqMemoKey) :
    Op (MemoLookup DefeqMemoEntry) := do
  let (identity, memo) ← memoIdentity layout
    (decide (lhsOrigin = .retained) && decide (rhsOrigin = .retained))
  match identity with
  | .ineligible => pure .ineligible
  | .miss => pure .miss
  | .entry index =>
    match memo.defeq[index]? with
    | none => pure .miss
    | some entry => if entry.key = key then pure (.hit entry) else pure .miss

/-- A change of the memo, when it has room and the recorded cost is not zero. -/
def insertMemo (layout : Layout) (fuelCost : Nat) (insert : Memo → Memo) : Op Unit :=
  Run.modify fun s =>
    match s.memo with
    | none => s
    | some memo =>
      if fuelCost = 0 || !layout.retains memo.clock then s
      else { s with memo := some { insert memo with clock := memo.clock + 1 } }

def insertWhnf (layout : Layout) (key : WhnfMemoKey) (result : Expr) (fuelCost : Nat) : Op Unit :=
  insertMemo layout fuelCost fun memo =>
    { memo with whnf := ⟨key, result, fuelCost⟩ :: memo.whnf }

def insertDefeq (layout : Layout) (key : DefeqMemoKey) (fuelCost : Nat) : Op Unit :=
  insertMemo layout fuelCost fun memo => { memo with defeq := ⟨key, fuelCost⟩ :: memo.defeq }

end NpaCore.Kernel
