import NpaCore.Frontend.ScopeAgreement
import NpaCore.Kernel.NamesInvisible

/-!
# Renaming of bound variables

A term with other names for its bound variables takes both passes through the same steps: the
names of a scope are only compared with each other and with the roots of the global names, and
the kernel, which checks annotations and declarations, does not see them.

## Main result

`renamed_term`: when a term is resolved and elaborated, so is the renamed one, and the two core
terms are the same up to the display names of their binders.
-/

namespace NpaCore.Frontend

open NpaCore.Expr (relabel)
open NpaCore.Kernel (forgetNames)

/-! ### Resolution of one name -/

section Ident

variable (globals : GlobalTable) (universeParams : List String) {locals : LocalScope}
  {name : MachineName} {universeArgs : Option (List MachineLevel)} {explicitMode : Bool}

theorem resolveIdent_bound {index : Nat}
    (h : boundPosition locals.scope name universeArgs explicitMode = some index) :
    ∃ part, locals.scope.idxOf? part = some index ∧
      resolveIdent globals universeParams locals name universeArgs explicitMode =
        .ok (.local part) := by
  obtain ⟨part, isPart, here⟩ := Option.bind_eq_some_iff.mp h
  refine ⟨part, here, ?_⟩
  have found : locals.contains part = true := LocalScope.contains_iff.mpr ⟨index, here⟩
  simp only [resolveIdent, isPart, found, if_true]

theorem resolveIdent_free
    (h : boundPosition locals.scope name universeArgs explicitMode = none) :
    resolveIdent globals universeParams locals name universeArgs explicitMode =
      resolveGlobal globals universeParams name universeArgs explicitMode := by
  rw [resolveIdent]
  split
  next part isPart =>
    have missing : ¬ locals.contains part = true := by
      intro found
      obtain ⟨index, here⟩ := LocalScope.contains_iff.mp found
      rw [boundPosition, isPart, Option.bind_some, here] at h
      cases h
    rw [if_neg missing]
  next => rfl

end Ident

/-! ### Two elaborations side by side -/

/-- The elaborators know the same signatures, none with implicit arguments, and their kernel
    environments are the same up to names. -/
structure SideBySide (left right : Elaborator) : Prop where
  globals : right.globals = left.globals
  explicit : ∀ name, left.implicitProfile name = []
  kernelEnv : left.kernelEnv.relabel forgetNames = right.kernelEnv.relabel forgetNames

namespace SideBySide

variable {left right : Elaborator} (side : SideBySide left right)
include side

theorem universeParamCount (name : String) :
    right.universeParamCount name = left.universeParamCount name := by
  simp only [Elaborator.universeParamCount, side.globals]

theorem explicit_right (name : String) : right.implicitProfile name = [] := by
  have same : right.implicitProfile name = left.implicitProfile name := by
    simp only [Elaborator.implicitProfile, side.globals]
  rw [same, side.explicit]

end SideBySide

/-- No application is stopped for its implicit arguments when there are none. -/
theorem implicitApplicationDiagnostic_eq_none {elaborator : Elaborator}
    (explicit : ∀ name, elaborator.implicitProfile name = []) (func arg : MachineTerm) :
    elaborator.implicitApplicationDiagnostic func arg = none := by
  rw [Elaborator.implicitApplicationDiagnostic]
  generalize machineAppSpine func arg = spine
  obtain ⟨head, args⟩ := spine
  cases head with
  | ident name universeArgs explicitMode => simp [explicit]
  | _ => rfl

section Elaboration

variable (elaborator : Elaborator) (alloc : Kernel.Allocator) (debug : DebugTexts)
  (delta : List String) {context : LocalContext}

theorem elaborate_local {part : String} {index : Nat}
    (found : context.scope.idxOf? part = some index) :
    elaborator.elaborateTerm alloc debug delta context (.local part) =
      .ok (.bvar (index % 2 ^ 32)) := by
  have position : context.lookupBvar part = some (index % 2 ^ 32) := by
    rw [LocalContext.lookupBvar_eq, found]
    rfl
  simp only [Elaborator.elaborateTerm, position, Result.okOr]
  rfl

variable {elaborator alloc debug delta}

theorem elaborate_app (explicit : ∀ name, elaborator.implicitProfile name = [])
    (func arg : MachineTerm) :
    elaborator.elaborateTerm alloc debug delta context (.app func arg) =
      (do
        let func ← elaborator.elaborateTerm alloc debug delta context func
        let arg ← elaborator.elaborateTerm alloc debug delta context arg
        .ok (.app func arg)) := by
  simp only [Elaborator.elaborateTerm, implicitApplicationDiagnostic_eq_none explicit]

end Elaboration

@[simp] theorem toKernelCtx_pushAssumption (context : LocalContext) (name : String)
    (ty : Kernel.Expr) :
    (context.pushAssumption name ty).toKernelCtx = context.toKernelCtx.pushAssumption ty := by
  simp [LocalContext.toKernelCtx, LocalContext.pushAssumption]

/-- Contexts of the two sides: their names are those of the scopes, and their types are the same
    up to names. -/
structure SameContexts (locals locals' : LocalScope) (context context' : LocalContext) : Prop where
  left : context.scope = locals.scope
  right : context'.scope = locals'.scope
  types : context.toKernelCtx.relabel forgetNames = context'.toKernelCtx.relabel forgetNames

theorem SameContexts.push {locals locals' : LocalScope} {context context' : LocalContext}
    (same : SameContexts locals locals' context context') (name name' : String)
    {ty ty' : Kernel.Expr} (types : relabel forgetNames ty = relabel forgetNames ty') :
    SameContexts (locals.push name) (locals'.push name') (context.pushAssumption name ty)
      (context'.pushAssumption name' ty') where
  left := by rw [LocalContext.scope_pushAssumption, LocalScope.scope_push, same.left]
  right := by rw [LocalContext.scope_pushAssumption, LocalScope.scope_push, same.right]
  types := by
    rw [toKernelCtx_pushAssumption, toKernelCtx_pushAssumption, Kernel.relabel_pushAssumption,
      Kernel.relabel_pushAssumption, same.types, types]

/-- Binders whose types are the same up to names. -/
def SameTypes (binders binders' : List ElaboratedBinder) : Prop :=
  List.Forall₂ (fun binder binder' => relabel forgetNames binder.ty = relabel forgetNames binder'.ty)
    binders binders'

theorem SameTypes.closeLam {binders binders' : List ElaboratedBinder}
    (same : SameTypes binders binders') {body body' : Kernel.Expr}
    (bodies : relabel forgetNames body = relabel forgetNames body') :
    relabel forgetNames (closeLam binders body) = relabel forgetNames (closeLam binders' body') := by
  induction same with
  | nil => exact bodies
  | cons types _ ih => exact congrArg₂ (NpaCore.Expr.lam _) types ih

theorem SameTypes.closePi {binders binders' : List ElaboratedBinder}
    (same : SameTypes binders binders') {body body' : Kernel.Expr}
    (bodies : relabel forgetNames body = relabel forgetNames body') :
    relabel forgetNames (closePi binders body) = relabel forgetNames (closePi binders' body') := by
  induction same with
  | nil => exact bodies
  | cons types _ ih => exact congrArg₂ (NpaCore.Expr.pi _) types ih

theorem matches_mapError (debug : DebugTexts) {α β : Type} {R : α → β → Prop} {x : Kernel.Result α}
    {y : Kernel.Result β} (h : Result.Matches R x y) :
    Result.Matches R (x.mapError (kernelExprDiagnostic debug))
      (y.mapError (kernelExprDiagnostic debug)) := by
  cases x with
  | error _ => cases y with
    | error _ => trivial
    | ok _ => exact h.elim
  | ok _ => cases y with
    | error _ => exact h.elim
    | ok _ => exact h

section Checks

variable {left right : Elaborator} (side : SideBySide left right) (alloc : Kernel.Allocator)
  (debug : DebugTexts) (delta : List String) {locals locals' : LocalScope}
  {context context' : LocalContext} (same : SameContexts locals locals' context context')
include side same

theorem ensureType_matches {ty ty' : Kernel.Expr}
    (sameTy : relabel forgetNames ty = relabel forgetNames ty') :
    Result.Matches (fun _ _ => True) (left.ensureType alloc debug ty context delta)
      (right.ensureType alloc debug ty' context' delta) := by
  have inferred := Kernel.infer_names alloc alloc delta side.kernelEnv same.types sameTy
  refine Result.matches_bind (matches_mapError debug inferred) fun found found' _ _ sameFound => ?_
  have reduced := Kernel.whnf_names alloc alloc delta side.kernelEnv same.types sameFound
  refine Result.matches_bind (matches_mapError debug reduced) fun value value' _ _ sameValue => ?_
  -- the two values have the same shape, so both are sorts or neither is
  cases value <;> cases value' <;> trivial

theorem checkExpr_matches {expr expr' ty ty' : Kernel.Expr}
    (sameExpr : relabel forgetNames expr = relabel forgetNames expr')
    (sameTy : relabel forgetNames ty = relabel forgetNames ty') :
    Result.Matches (fun done done' => id done = id done')
      (left.checkExpr alloc debug expr ty context delta)
      (right.checkExpr alloc debug expr' ty' context' delta) :=
  matches_mapError debug
    (Kernel.check_names alloc alloc delta side.kernelEnv same.types sameExpr sameTy)

end Checks

/-! ### Terms -/

section Terms

variable {left right : Elaborator} (alloc : Kernel.Allocator) (debug : DebugTexts)
  (delta : List String) {table : GlobalTable} {universeParams : List String}
  {allowed : String → Prop}

mutual

theorem renamed_term (side : SideBySide left right)
    (rootless : ∀ name, allowed name → table.hasRoot name = false) (term : MachineTerm)
    {term' : MachineTerm} {locals locals' : LocalScope} {context context' : LocalContext}
    {resolved : MachineTerm} {elaborated : Kernel.Expr}
    (same : SameContexts locals locals' context context')
    (renames : Renames allowed locals.scope locals'.scope term term')
    (resolves : resolveTerm table universeParams locals term = .ok resolved)
    (elaborates : left.elaborateTerm alloc debug delta context resolved = .ok elaborated) :
    ∃ resolved' elaborated', resolveTerm table universeParams locals' term' = .ok resolved' ∧
      right.elaborateTerm alloc debug delta context' resolved' = .ok elaborated' ∧
      relabel forgetNames elaborated = relabel forgetNames elaborated' := by
  match term with
  | .ident name universeArgs explicitMode =>
    cases renames with
    | bound here there =>
      -- both names are marked, and both have that position
      obtain ⟨part, found, marked⟩ := resolveIdent_bound table universeParams here
      obtain ⟨part', found', marked'⟩ := resolveIdent_bound table universeParams there
      cases marked.symm.trans resolves
      rw [elaborate_local left alloc debug delta (same.left.symm ▸ found)] at elaborates
      cases elaborates
      exact ⟨_, _, marked', elaborate_local right alloc debug delta (same.right.symm ▸ found'), rfl⟩
    | free here there =>
      -- neither name is marked, and the table is asked for the same name
      have unmarked : resolveIdent table universeParams locals' name universeArgs explicitMode =
          .ok resolved := by
        rw [resolveIdent_free table universeParams there,
          ← resolveIdent_free table universeParams here]
        exact resolves
      obtain ⟨part, index, bound, _⟩ | ⟨_, _, rfl⟩ := resolveIdent_eq_ok resolves
      · rw [here] at bound
        cases bound
      · refine ⟨_, elaborated, unmarked, ?_, rfl⟩
        simp only [Elaborator.elaborateTerm, side.universeParamCount]
        exact elaborates
  | .local name => cases renames
  | .prop =>
    cases renames
    cases resolves
    cases elaborates
    exact ⟨_, _, rfl, rfl, rfl⟩
  | .type level =>
    cases renames
    have resolves' := resolves
    obtain ⟨level', _, done⟩ := Result.bind_eq_ok.mp resolves'
    cases done
    exact ⟨_, _, resolves, elaborates, rfl⟩
  | .sort level =>
    cases renames
    have resolves' := resolves
    obtain ⟨level', _, done⟩ := Result.bind_eq_ok.mp resolves'
    cases done
    exact ⟨_, _, resolves, elaborates, rfl⟩
  | .app func arg =>
    cases renames with
    | app func_ arg_ =>
      obtain ⟨_, hfunc, resolves⟩ := Result.bind_eq_ok.mp resolves
      obtain ⟨_, harg, resolves⟩ := Result.bind_eq_ok.mp resolves
      cases resolves
      rw [elaborate_app side.explicit] at elaborates
      obtain ⟨_, efunc, elaborates⟩ := Result.bind_eq_ok.mp elaborates
      obtain ⟨_, earg, elaborates⟩ := Result.bind_eq_ok.mp elaborates
      cases elaborates
      obtain ⟨rfunc, _, hfunc', efunc', sameFunc⟩ :=
        renamed_term side rootless func same func_ hfunc efunc
      obtain ⟨rarg, _, harg', earg', sameArg⟩ :=
        renamed_term side rootless arg same arg_ harg earg
      refine ⟨.app rfunc rarg, .app _ _, ?_, ?_, congrArg₂ NpaCore.Expr.app sameFunc sameArg⟩
      · simp only [resolveTerm, hfunc', harg', Result.ok_bind]
      · simp only [elaborate_app side.explicit_right, efunc', earg', Result.ok_bind]
  | .lam binders body =>
    cases renames with
    | lam binders_ body_ =>
      obtain ⟨_, hbinders, resolves⟩ := Result.bind_eq_ok.mp resolves
      obtain ⟨_, hbody, resolves⟩ := Result.bind_eq_ok.mp resolves
      cases resolves
      obtain ⟨_, ebinders, elaborates⟩ := Result.bind_eq_ok.mp elaborates
      obtain ⟨_, ebody, elaborates⟩ := Result.bind_eq_ok.mp elaborates
      cases elaborates
      obtain ⟨rbinders, _, _, _, hbinders', ebinders', rfl, rfl, inner, types⟩ :=
        renamed_binders side rootless binders same binders_ hbinders ebinders
      obtain ⟨rbody, _, hbody', ebody', sameBody⟩ :=
        renamed_term side rootless body inner body_ hbody ebody
      refine ⟨.lam rbinders rbody, _, ?_, ?_, types.closeLam sameBody⟩
      · simp only [resolveTerm, hbinders', hbody', Result.ok_bind]
      · simp only [Elaborator.elaborateTerm, ebinders', ebody', Result.ok_bind]
  | .pi binders body =>
    cases renames with
    | pi binders_ body_ =>
      obtain ⟨_, hbinders, resolves⟩ := Result.bind_eq_ok.mp resolves
      obtain ⟨_, hbody, resolves⟩ := Result.bind_eq_ok.mp resolves
      cases resolves
      obtain ⟨_, ebinders, elaborates⟩ := Result.bind_eq_ok.mp elaborates
      obtain ⟨_, ebody, elaborates⟩ := Result.bind_eq_ok.mp elaborates
      cases elaborates
      obtain ⟨rbinders, _, _, _, hbinders', ebinders', rfl, rfl, inner, types⟩ :=
        renamed_binders side rootless binders same binders_ hbinders ebinders
      obtain ⟨rbody, _, hbody', ebody', sameBody⟩ :=
        renamed_term side rootless body inner body_ hbody ebody
      refine ⟨.pi rbinders rbody, _, ?_, ?_, types.closePi sameBody⟩
      · simp only [resolveTerm, hbinders', hbody', Result.ok_bind]
      · simp only [Elaborator.elaborateTerm, ebinders', ebody', Result.ok_bind]
  | .annot expr ty =>
    cases renames with
    | annot expr_ ty_ =>
      obtain ⟨_, hexpr, resolves⟩ := Result.bind_eq_ok.mp resolves
      obtain ⟨_, hty, resolves⟩ := Result.bind_eq_ok.mp resolves
      cases resolves
      obtain ⟨_, eexpr, elaborates⟩ := Result.bind_eq_ok.mp elaborates
      obtain ⟨_, ety, elaborates⟩ := Result.bind_eq_ok.mp elaborates
      obtain ⟨_, ensured, elaborates⟩ := Result.bind_eq_ok.mp elaborates
      obtain ⟨_, checked, elaborates⟩ := Result.bind_eq_ok.mp elaborates
      cases elaborates
      obtain ⟨rexpr, _, hexpr', eexpr', sameExpr⟩ :=
        renamed_term side rootless expr same expr_ hexpr eexpr
      obtain ⟨rty, _, hty', ety', sameTy⟩ := renamed_term side rootless ty same ty_ hty ety
      obtain ⟨_, ensured', _⟩ := (ensureType_matches side alloc debug delta same sameTy).of_left
        ensured
      obtain ⟨_, checked', _⟩ := (checkExpr_matches side alloc debug delta same sameExpr
        sameTy).of_left checked
      refine ⟨.annot rexpr rty, _, ?_, ?_, sameExpr⟩
      · simp only [resolveTerm, hexpr', hty', Result.ok_bind]
      · simp only [Elaborator.elaborateTerm, eexpr', ety', ensured', checked', Result.ok_bind]

theorem renamed_binders (side : SideBySide left right)
    (rootless : ∀ name, allowed name → table.hasRoot name = false) (binders : List MachineBinder)
    {binders' : List MachineBinder} {locals locals' nested : LocalScope}
    {context context' inner : LocalContext} {resolved : List MachineBinder}
    {elaborated : List ElaboratedBinder} {scope scope' : List String}
    (same : SameContexts locals locals' context context')
    (renames : RenamesBinders allowed locals.scope locals'.scope binders binders' scope scope')
    (resolves : resolveBinders table universeParams locals binders = .ok (resolved, nested))
    (elaborates : left.elaborateBinders alloc debug delta context resolved =
      .ok (elaborated, inner)) :
    ∃ resolved' nested' elaborated' inner',
      resolveBinders table universeParams locals' binders' = .ok (resolved', nested') ∧
      right.elaborateBinders alloc debug delta context' resolved' = .ok (elaborated', inner') ∧
      nested.scope = scope ∧ nested'.scope = scope' ∧ SameContexts nested nested' inner inner' ∧
      SameTypes elaborated elaborated' := by
  match binders with
  | [] =>
    cases renames
    cases resolves
    cases elaborates
    exact ⟨[], locals', [], context', rfl, rfl, rfl, rfl, same, List.Forall₂.nil⟩
  | .mk name ty :: binders =>
    cases renames with
    | @cons _ _ _ _ _ name' _ ty' _ binders' fresh ty_ binders_ =>
      obtain ⟨_, hbinder, resolves⟩ := Result.bind_eq_ok.mp resolves
      obtain ⟨_, hbinders, resolves⟩ := Result.bind_eq_ok.mp resolves
      cases resolves
      obtain ⟨_, _, hbinder⟩ := Result.bind_eq_ok.mp hbinder
      obtain ⟨_, hty, hbinder⟩ := Result.bind_eq_ok.mp hbinder
      cases hbinder
      obtain ⟨_, ebinder, elaborates⟩ := Result.bind_eq_ok.mp elaborates
      obtain ⟨_, ebinders, elaborates⟩ := Result.bind_eq_ok.mp elaborates
      cases elaborates
      obtain ⟨_, ety, ebinder⟩ := Result.bind_eq_ok.mp ebinder
      cases ebinder
      obtain ⟨rty, ety', hty', elaborates', sameTy⟩ :=
        renamed_term side rootless ty same ty_ hty ety
      rw [← LocalScope.scope_push, ← LocalScope.scope_push] at binders_
      obtain ⟨rbinders, nested', ebinders', inner', hbinders', elaborated', inside, inside', others,
        types⟩ := renamed_binders side rootless binders (same.push name name' sameTy) binders_
          hbinders ebinders
      have rootless' : ensureLocalDoesNotShadowGlobal table name' = .ok () := by
        simp [ensureLocalDoesNotShadowGlobal, rootless name' fresh]
      refine ⟨.mk name' rty :: rbinders, nested', ⟨name', ety'⟩ :: ebinders', inner', ?_, ?_,
        inside, inside', others, List.Forall₂.cons sameTy types⟩
      · simp only [resolveBinders, resolveBinder, rootless', hty', hbinders', Result.ok_bind]
      · simp only [Elaborator.elaborateBinders, Elaborator.elaborateBinder, elaborates',
          elaborated', Result.ok_bind]

end

end Terms

end NpaCore.Frontend
