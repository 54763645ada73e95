import NpaCore.Kernel.Infer
import NpaCore.Lib.OrderedMap

/-!
# Proof expressions

The partial proofs of `npa-tactic/src/lib.rs`: core expressions with metavariables, which
stand for what is still to be proved, applications and lambdas around them.

A metavariable and the goal it stands for have one number: `GoalId::from` and
`MetaVarId::from` keep it, so that both types are numbers here.
-/

namespace NpaCore.Tactic

abbrev MetaVarId := Nat
abbrev GoalId := Nat

inductive ProofExpr where
  | core (expr : Kernel.Expr)
  | metaVar (id : MetaVarId)
  | app (fn arg : ProofExpr)
  | lam (binder : String) (ty : Kernel.Expr) (body : ProofExpr)
  deriving DecidableEq, Repr

structure MachineLocalDecl where
  name : String
  ty : Kernel.Expr
  deriving DecidableEq, Repr

/-- The assumptions of a goal, outermost first. -/
abbrev LocalContext := List MachineLocalDecl

/-- `machine_local_context_is_prefix`: declaration by declaration, with names and binder names. -/
def machineLocalContextIsPrefix (ctx full : LocalContext) : Bool :=
  decide (ctx.length ≤ full.length) && (ctx.zip full).all fun pair => pair.1 == pair.2

/-! ### Measures and names -/

def coreExprNodeCount : Kernel.Expr → Nat
  | .sort _ | .bvar _ | .const _ _ => 1
  | .app fn arg => 1 + coreExprNodeCount fn + coreExprNodeCount arg
  | .lam _ ty body | .pi _ ty body => 1 + coreExprNodeCount ty + coreExprNodeCount body

def proofExprNodeCount : ProofExpr → Nat
  | .core core => 1 + coreExprNodeCount core
  | .metaVar _ => 1
  | .app fn arg => 1 + proofExprNodeCount fn + proofExprNodeCount arg
  | .lam _ ty body => 1 + coreExprNodeCount ty + proofExprNodeCount body

def containsBoundVar (target : Nat) : Kernel.Expr → Bool
  | .sort _ | .const _ _ => false
  | .bvar index => index == target
  | .app fn arg => containsBoundVar target fn || containsBoundVar target arg
  | .lam _ ty body | .pi _ ty body => containsBoundVar target ty || containsBoundVar (target + 1) body

/-- A `BTreeSet<String>`, in order. -/
def insertName (name : String) (names : List String) : List String :=
  OrderedMap.insertKey compare name names

def collectCoreBinders : Kernel.Expr → List String → List String
  | .sort _, names | .bvar _, names | .const _ _, names => names
  | .app fn arg, names => collectCoreBinders arg (collectCoreBinders fn names)
  | .lam binder ty body, names | .pi binder ty body, names =>
    collectCoreBinders body (collectCoreBinders ty (insertName binder names))

def collectProofExprBinders : ProofExpr → List String → List String
  | .core core, names => collectCoreBinders core names
  | .metaVar _, names => names
  | .app fn arg, names => collectProofExprBinders arg (collectProofExprBinders fn names)
  | .lam binder ty body, names =>
    collectProofExprBinders body (collectCoreBinders ty (insertName binder names))

/-! ### Metavariables of an expression -/

/-- The metavariables an expression mentions. -/
def ProofExpr.metas : ProofExpr → List MetaVarId
  | .core _ => []
  | .metaVar id => [id]
  | .app fn arg => fn.metas ++ arg.metas
  | .lam _ _ body => body.metas

/-! ### Prefixes -/

theorem machineLocalContextIsPrefix_iff {ctx full : LocalContext} :
    machineLocalContextIsPrefix ctx full = true ↔ ctx <+: full := by
  induction ctx generalizing full with
  | nil => simp [machineLocalContextIsPrefix]
  | cons decl rest ih =>
    cases full with
    | nil => simp [machineLocalContextIsPrefix]
    | cons other others =>
      rw [List.cons_prefix_cons, ← ih]
      simp only [machineLocalContextIsPrefix, List.length_cons, Nat.add_le_add_iff_right,
        List.zip_cons_cons, List.all_cons, Bool.and_eq_true, decide_eq_true_eq, beq_iff_eq]
      constructor
      · rintro ⟨short, same, below⟩
        exact ⟨same, short, below⟩
      · rintro ⟨same, short, below⟩
        exact ⟨short, same, below⟩

end NpaCore.Tactic
