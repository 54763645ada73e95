import NpaCore.Frontend.Elaborator
import NpaCore.Frontend.TermSourceCodec

/-!
# What the names of a source mean

The meaning of a source without its two passes: a term in a scope as a term with positions, and
which of its names stand for global names. A scope lists the bound names, the innermost first,
and a local name is its first position there.

## Main definitions

- `translateTerm`: the de Bruijn translation of a term.
- `UsesGlobals`: every name that no binder binds is the name of exactly one global.
- `Renames`: two terms are the same up to the names of their bound variables.
-/

namespace NpaCore.Expr

variable {κ ν β : Type}

/-- Every position as a `u32`. -/
def asU32 : Expr κ ν β → Expr κ ν β
  | sort level => sort level
  | bvar index => bvar (index % 2 ^ 32)
  | const name levels => const name levels
  | app fn arg => app (asU32 fn) (asU32 arg)
  | lam binder ty body => lam binder (asU32 ty) (asU32 body)
  | pi binder ty body => pi binder (asU32 ty) (asU32 body)

/-- Every position is a `u32`. -/
def FitsU32 : Expr κ ν β → Prop
  | sort _ => True
  | bvar index => index < 2 ^ 32
  | const _ _ => True
  | app fn arg => FitsU32 fn ∧ FitsU32 arg
  | lam _ ty body => FitsU32 ty ∧ FitsU32 body
  | pi _ ty body => FitsU32 ty ∧ FitsU32 body

theorem asU32_of_fits {e : Expr κ ν β} (fits : e.FitsU32) : e.asU32 = e := by
  induction e with
  | sort _ | const _ _ => rfl
  | bvar index => exact congrArg bvar (Nat.mod_eq_of_lt fits)
  | app _ _ ihFn ihArg => exact congrArg₂ app (ihFn fits.1) (ihArg fits.2)
  | lam _ _ _ ihTy ihBody => exact congrArg₂ (lam _) (ihTy fits.1) (ihBody fits.2)
  | pi _ _ _ ihTy ihBody => exact congrArg₂ (pi _) (ihTy fits.1) (ihBody fits.2)

end NpaCore.Expr

namespace NpaCore.Kernel

/-- The positions of a definition or theorem; the other declarations are not elaborated. -/
def Declaration.asU32 : Declaration → Declaration
  | .defDecl name universeParams universeConstraints ty value reducibility =>
    .defDecl name universeParams universeConstraints ty.asU32 value.asU32 reducibility
  | .theoremDecl name universeParams universeConstraints ty proof =>
    .theoremDecl name universeParams universeConstraints ty.asU32 proof.asU32
  | decl => decl

def Declaration.FitsU32 : Declaration → Prop
  | .defDecl _ _ _ ty value _ => ty.FitsU32 ∧ value.FitsU32
  | .theoremDecl _ _ _ ty proof => ty.FitsU32 ∧ proof.FitsU32
  | _ => True

theorem Declaration.asU32_of_fits {decl : Declaration} (fits : decl.FitsU32) :
    decl.asU32 = decl := by
  cases decl with
  | defDecl =>
    rw [Declaration.asU32, NpaCore.Expr.asU32_of_fits fits.1, NpaCore.Expr.asU32_of_fits fits.2]
  | theoremDecl =>
    rw [Declaration.asU32, NpaCore.Expr.asU32_of_fits fits.1, NpaCore.Expr.asU32_of_fits fits.2]
  | axiomDecl | inductiveDecl | mutualInductiveBlock => rfl

end NpaCore.Kernel

namespace NpaCore.Frontend

open NpaCore.Kernel (Declaration)

/-! ### The translation -/

def natLevel : Nat → Kernel.Level
  | 0 => .zero
  | n + 1 => .succ (natLevel n)

def translateLevel : MachineLevel → Kernel.Level
  | .nat value => natLevel value.toNat
  | .param name => .param name
  | .succ level => .succ (translateLevel level)
  | .max lhs rhs => .max (translateLevel lhs) (translateLevel rhs)
  | .imax lhs rhs => .imax (translateLevel lhs) (translateLevel rhs)

/-- The binder that an occurrence refers to: only a name of one part, without `@` and without
    universe arguments, is looked up among the bound names. -/
def boundPosition (scope : List String) (name : MachineName)
    (universeArgs : Option (List MachineLevel)) (explicitMode : Bool) : Option Nat :=
  (localPart name universeArgs explicitMode).bind fun part => scope.idxOf? part

mutual

/-- An annotation is checked and then forgotten. -/
def translateTerm (scope : List String) : MachineTerm → Kernel.Expr
  | .ident name universeArgs explicitMode =>
    match boundPosition scope name universeArgs explicitMode with
    | some index => .bvar index
    | none => .const name.asDotted ((universeArgs.getD []).map translateLevel)
  | .local name => .bvar (scope.idxOf name)
  | .prop => .sort .zero
  | .type level => .sort (.succ (translateLevel level))
  | .sort level => .sort (translateLevel level)
  | .app func arg => .app (translateTerm scope func) (translateTerm scope arg)
  | .lam binders body => translateBinders .lam scope binders fun inner => translateTerm inner body
  | .pi binders body => translateBinders .pi scope binders fun inner => translateTerm inner body
  | .annot expr _ => translateTerm scope expr

/-- The telescope around a body: the type of a binder sees the binders before it. -/
def translateBinders (close : String → Kernel.Expr → Kernel.Expr → Kernel.Expr) (scope : List String) :
    List MachineBinder → (List String → Kernel.Expr) → Kernel.Expr
  | [], body => body scope
  | .mk name ty :: binders, body =>
    close name (translateTerm scope ty) (translateBinders close (name :: scope) binders body)

end

def translateDecl (decl : MachineDecl) (close : String → Kernel.Expr → Kernel.Expr → Kernel.Expr) (body : MachineTerm) :
    Kernel.Expr :=
  translateBinders close [] decl.binders fun inner => translateTerm inner body

/-- The declaration of an item, if it is not an import. -/
def translateItem : MachineItem → Option Declaration
  | .importModule _ => none
  | .defDecl ⟨decl, reducibility⟩ =>
    some (.defDecl decl.name.asDotted (decl.universeParams.map MachineUniverseParam.name) []
      (translateDecl decl .pi decl.ty) (translateDecl decl .lam decl.value)
      (Elaborator.kernelReducibility reducibility))
  | .theoremDecl decl =>
    some (.theoremDecl decl.name.asDotted (decl.universeParams.map MachineUniverseParam.name) []
      (translateDecl decl .pi decl.ty) (translateDecl decl .lam decl.value))

/-! ### Global names -/

/-- The global names with their universe parameters, as often as they are declared. -/
abbrev Globals := List (String × List String)

/-- Exactly one global has that name, and it takes that many universe arguments. -/
def DenotesOne (globals : Globals) (dotted : String) (universeArgs : Option (List MachineLevel)) :
    Prop :=
  ∃ params, (globals.filter fun entry => entry.1 = dotted) = [(dotted, params)] ∧
    (universeArgs.getD []).length = params.length

mutual

/-- Every name that no binder binds denotes the one global of exactly that name. -/
def UsesGlobals (globals : Globals) (scope : List String) : MachineTerm → Prop
  | .ident name universeArgs explicitMode =>
    boundPosition scope name universeArgs explicitMode = none →
      DenotesOne globals name.asDotted universeArgs
  | .local _ | .prop | .type _ | .sort _ => True
  | .app func arg => UsesGlobals globals scope func ∧ UsesGlobals globals scope arg
  | .lam binders body | .pi binders body =>
    BindersUseGlobals globals scope binders fun inner => UsesGlobals globals inner body
  | .annot expr ty => UsesGlobals globals scope expr ∧ UsesGlobals globals scope ty

def BindersUseGlobals (globals : Globals) (scope : List String) :
    List MachineBinder → (List String → Prop) → Prop
  | [], body => body scope
  | .mk name ty :: binders, body =>
    UsesGlobals globals scope ty ∧ BindersUseGlobals globals (name :: scope) binders body

end

def MachineDecl.UsesGlobals (globals : Globals) (decl : MachineDecl) : Prop :=
  BindersUseGlobals globals [] decl.binders fun inner =>
    NpaCore.Frontend.UsesGlobals globals inner decl.ty ∧
      NpaCore.Frontend.UsesGlobals globals inner decl.value

/-- The global that a declaration adds. -/
def MachineDecl.global (decl : MachineDecl) : String × List String :=
  (decl.name.asDotted, decl.universeParams.map MachineUniverseParam.name)

def exportedGlobals (imports : List VerifiedImport) : Globals :=
  (imports.flatMap VerifiedImport.exports).map fun exported =>
    (exported.name.asDotted, exported.universeParams)

/-- The names in every declaration denote an export or a declaration before it. -/
def ItemsUseGlobals (globals : Globals) : List MachineItem → Prop
  | [] => True
  | item :: items =>
    match item.declaration with
    | none => ItemsUseGlobals globals items
    | some decl => decl.UsesGlobals globals ∧ ItemsUseGlobals (globals ++ [decl.global]) items

/-- The first components of the names of all exports and of all declarations. -/
def globalRoots (imports : List VerifiedImport) (module : MachineModule) : List String :=
  ((imports.flatMap VerifiedImport.exports).flatMap fun exported =>
      exported.name.components.head?.toList) ++
    (module.items.filterMap MachineItem.declaration).flatMap fun decl => decl.name.parts.head?.toList

/-! ### Renaming -/

section Renames

variable (allowed : String → Prop)

mutual

/-- The second term is the first one with other names for its bound variables, all of them
    allowed: binders correspond one to one, a bound name stands for the same binder in both,
    and a name that is not bound is the same name and is not bound in the other term. -/
inductive Renames : List String → List String → MachineTerm → MachineTerm → Prop
  | bound {scope scope' name name' universeArgs universeArgs' explicitMode explicitMode' index}
      (here : boundPosition scope name universeArgs explicitMode = some index)
      (there : boundPosition scope' name' universeArgs' explicitMode' = some index) :
      Renames scope scope' (.ident name universeArgs explicitMode)
        (.ident name' universeArgs' explicitMode')
  | free {scope scope' name universeArgs explicitMode}
      (here : boundPosition scope name universeArgs explicitMode = none)
      (there : boundPosition scope' name universeArgs explicitMode = none) :
      Renames scope scope' (.ident name universeArgs explicitMode)
        (.ident name universeArgs explicitMode)
  | prop {scope scope'} : Renames scope scope' .prop .prop
  | type {scope scope' level} : Renames scope scope' (.type level) (.type level)
  | sort {scope scope' level} : Renames scope scope' (.sort level) (.sort level)
  | app {scope scope' func func' arg arg'} (func_ : Renames scope scope' func func')
      (arg_ : Renames scope scope' arg arg') :
      Renames scope scope' (.app func arg) (.app func' arg')
  | lam {scope scope' inner inner' binders binders' body body'}
      (binders_ : RenamesBinders scope scope' binders binders' inner inner')
      (body_ : Renames inner inner' body body') :
      Renames scope scope' (.lam binders body) (.lam binders' body')
  | pi {scope scope' inner inner' binders binders' body body'}
      (binders_ : RenamesBinders scope scope' binders binders' inner inner')
      (body_ : Renames inner inner' body body') :
      Renames scope scope' (.pi binders body) (.pi binders' body')
  | annot {scope scope' expr expr' ty ty'} (expr_ : Renames scope scope' expr expr')
      (ty_ : Renames scope scope' ty ty') :
      Renames scope scope' (.annot expr ty) (.annot expr' ty')

/-- The same for telescopes, with the scopes inside them. -/
inductive RenamesBinders : List String → List String → List MachineBinder → List MachineBinder →
    List String → List String → Prop
  | nil {scope scope'} : RenamesBinders scope scope' [] [] scope scope'
  | cons {scope scope' inner inner' name name' ty ty' binders binders'} (fresh : allowed name')
      (ty_ : Renames scope scope' ty ty')
      (binders_ : RenamesBinders (name :: scope) (name' :: scope') binders binders' inner inner') :
      RenamesBinders scope scope' (.mk name ty :: binders) (.mk name' ty' :: binders') inner inner'

end

structure RenamesDecl (decl decl' : MachineDecl) : Prop where
  name : decl'.name = decl.name
  universeParams : decl'.universeParams = decl.universeParams
  terms : ∃ inner inner', RenamesBinders allowed [] [] decl.binders decl'.binders inner inner' ∧
    Renames allowed inner inner' decl.ty decl'.ty ∧
    Renames allowed inner inner' decl.value decl'.value

inductive RenamesItem : MachineItem → MachineItem → Prop
  | importModule {module} : RenamesItem (.importModule module) (.importModule module)
  | defDecl {decl decl' reducibility} (decl_ : RenamesDecl allowed decl decl') :
      RenamesItem (.defDecl ⟨decl, reducibility⟩) (.defDecl ⟨decl', reducibility⟩)
  | theoremDecl {decl decl'} (decl_ : RenamesDecl allowed decl decl') :
      RenamesItem (.theoremDecl decl) (.theoremDecl decl')

def RenamesModule (module module' : MachineModule) : Prop :=
  List.Forall₂ (RenamesItem allowed) module.items module'.items

end Renames

end NpaCore.Frontend
