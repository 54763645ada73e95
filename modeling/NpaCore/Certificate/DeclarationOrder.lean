import Mathlib.Data.Char
import Mathlib.Data.List.Lex
import NpaCore.Lib.Layers
import NpaCore.Certificate.Dependencies

/-!
# The order of declarations

`canonical_declaration_order` of `npa-cert/src/canonical.rs`: declarations are emitted in
layers, each as soon as the declarations it depends on have been emitted and by name within a
layer. A dependency is a constant that names another declaration of the list or something that
one generates.

## Main result

`canonicalDeclarationOrder_spec`: the order exists exactly when the public names are distinct
and no declaration depends on itself through others. It is a permutation of the list with
dependencies first, the same for every permutation of the list and for the order itself.
-/

namespace NpaCore.Certificate

open NpaCore.Kernel (Decl InductiveDecl MutualInductiveBlock splitDots)

/-! ### Names -/

/-- The characters of a name, with a dot after each component but the last. -/
def joinDots : List (List Char) → List Char
  | [] => []
  | [last] => last
  | first :: second :: rest => first ++ '.' :: joinDots (second :: rest)

theorem joinDots_splitDots (chars : List Char) : joinDots (splitDots chars) = chars := by
  induction chars with
  | nil => rfl
  | cons c rest ih =>
    rw [splitDots]
    cases parts : splitDots rest with
    | nil =>
      rw [parts] at ih
      simp [joinDots, ← ih]
    | cons first others =>
      rw [parts] at ih
      dsimp only
      split
      next dot => simp [joinDots, ih, dot]
      next =>
        cases others with
        | nil => simpa [joinDots] using ih
        | cons second rest' => simpa [joinDots] using ih

/-- Names are equal when their dotted strings are, so strings are compared in their place. -/
theorem nameComponents_injective : Function.Injective nameComponents := by
  intro a b same
  have chars := congrArg joinDots same
  rw [nameComponents, nameComponents, joinDots_splitDots, joinDots_splitDots] at chars
  exact String.toList_injective chars

/-! ### Declarations of a module -/

/-- `Decl` of `npa-kernel/src/decl.rs` with the blocks that an environment never stores. -/
inductive CoreDecl where
  | single (decl : Decl)
  | mutualInductiveBlock (name : String) (universeParams : List String)
      (data : MutualInductiveBlock)
  deriving DecidableEq, Repr

/-- `collect_const_names_from_expr`; only the set of names is used. -/
def exprConstNames : Kernel.Expr → List String
  | .sort _ | .bvar _ => []
  | .const name _ => [name]
  | .app fn arg => exprConstNames fn ++ exprConstNames arg
  | .lam _ ty body | .pi _ ty body => exprConstNames ty ++ exprConstNames body

/-- The constructors and the recursor of an inductive declaration. -/
def artifactNames (data : InductiveDecl) : List String :=
  data.constructors.map (·.name) ++ data.recursor.toList.map (·.name)

def inductiveConstNames (data : InductiveDecl) : List String :=
  data.params.flatMap (exprConstNames ·.ty) ++ data.indices.flatMap (exprConstNames ·.ty) ++
    data.constructors.flatMap (exprConstNames ·.ty) ++
    data.recursor.toList.flatMap (exprConstNames ·.ty)

namespace CoreDecl

def name : CoreDecl → String
  | single decl => decl.name
  | mutualInductiveBlock name _ _ => name

/-- What the declarations of a layer are sorted by. -/
def key (decl : CoreDecl) : List (List Char) := nameComponents decl.name

/-- The names that come with a declaration besides its own. -/
def generatedNames : CoreDecl → List String
  | single (.inductiveDecl _ _ _ data) => artifactNames data
  | single _ => []
  | mutualInductiveBlock _ _ data =>
    data.inductives.flatMap fun family => family.name :: artifactNames family

/-- `collect_const_names_from_decl`. -/
def constNames : CoreDecl → List String
  | single decl =>
    exprConstNames decl.ty ++
      match decl with
      | .defDecl _ _ _ _ value _ => exprConstNames value
      | .theoremDecl _ _ _ _ proof => exprConstNames proof
      | .inductiveDecl _ _ _ data => inductiveConstNames data
      | .axiomDecl .. | .constructorDecl .. | .recursorDecl .. => []
  | mutualInductiveBlock _ _ data => data.inductives.flatMap inductiveConstNames

end CoreDecl

/-! ### The order -/

section Order

variable (declarations : List CoreDecl)

/-- `local_name_to_index`: the names are unique. -/
def localIndex (name : String) : Option (Fin declarations.length) :=
  (List.finRange _).find? fun i => (declarations.get i).name = name

/-- `generated_name_to_index`: a later entry would replace an earlier one. -/
def generatedIndex (name : String) : Option (Fin declarations.length) :=
  (List.finRange _).reverse.find? fun i => (declarations.get i).generatedNames.contains name

def dependencies (i : Fin declarations.length) : List (Fin declarations.length) :=
  ((declarations.get i).constNames.filterMap fun name =>
    (localIndex declarations name).or (generatedIndex declarations name)).filter (· ≠ i)

/-- The names that the declarations introduce, in the order of `public_names`. -/
def publicNames : List String :=
  declarations.map CoreDecl.name ++ declarations.flatMap CoreDecl.generatedNames

/-- `canonical_declaration_order`. No name is a reserved core primitive, so that check of the
    public names never fails. -/
def canonicalDeclarationOrder : CertResult (List CoreDecl) := do
  ensureUniqueNames [] (declarations.map CoreDecl.name)
  ensureUniqueNames [] (publicNames declarations)
  match Layers.emit (dependencies declarations) (fun i => (declarations.get i).key)
      (List.finRange _) [] with
  | .ok order => .ok (order.map declarations.get)
  | .error index => .error (.dependencyCycle (declarations.get index).name)

/-- A constant of one declaration names another one of the list, or something it generates. -/
def DependsOn (decl other : CoreDecl) : Prop :=
  other ∈ declarations ∧ other ≠ decl ∧
    ∃ name ∈ decl.constNames, name = other.name ∨ name ∈ other.generatedNames

instance (decl other : CoreDecl) : Decidable (DependsOn declarations decl other) :=
  inferInstanceAs (Decidable (_ ∧ _ ∧ _))

end Order

/-! ### Distinct public names -/

theorem ensureUniqueNames_eq_ok {seen names : List String} :
    ensureUniqueNames seen names = .ok () ↔ names.Nodup ∧ ∀ name ∈ names, name ∉ seen := by
  induction names generalizing seen with
  | nil => simp [ensureUniqueNames]
  | cons first rest ih =>
    simp only [ensureUniqueNames, Result.bind_eq_ok, Result.ensure_eq_ok, ih, List.nodup_cons,
      List.mem_cons, not_or, forall_eq_or_imp]
    constructor
    · rintro ⟨_, fresh, nodup, others⟩
      refine ⟨⟨fun mem => (others first mem).1 rfl, nodup⟩, by simpa using fresh,
        fun name mem => (others name mem).2⟩
    · rintro ⟨⟨notIn, nodup⟩, fresh, others⟩
      exact ⟨(), by simpa using fresh, nodup,
        fun name mem => ⟨fun same => notIn (same ▸ mem), others name mem⟩⟩

theorem ensureUniqueNames_start {names : List String} {u : Unit} :
    ensureUniqueNames [] names = .ok u ↔ names.Nodup := by
  rw [ensureUniqueNames_eq_ok]
  simp

section Distinct

variable {declarations : List CoreDecl} (distinct : (publicNames declarations).Nodup)
include distinct

variable {i j : Fin declarations.length}

theorem names_injective (same : (declarations.get i).name = (declarations.get j).name) : i = j := by
  have names := (List.nodup_append.mp distinct).1
  have positions : (declarations.map CoreDecl.name).get ⟨i.1, by simp⟩ =
      (declarations.map CoreDecl.name).get ⟨j.1, by simp⟩ := by
    simpa using same
  have indices := List.nodup_iff_injective_get.mp names positions
  exact Fin.ext (Fin.mk.inj_iff.mp indices)

theorem get_injective : Function.Injective declarations.get :=
  fun _ _ same => names_injective distinct (congrArg CoreDecl.name same)

theorem generatedNames_injective {name : String}
    (first : name ∈ (declarations.get i).generatedNames)
    (second : name ∈ (declarations.get j).generatedNames) : i = j := by
  have generated := (List.nodup_append.mp distinct).2.1
  have apart := List.pairwise_iff_getElem.mp (List.nodup_flatMap.mp generated).2
  rcases Nat.lt_trichotomy i.1 j.1 with less | same | more
  · exact absurd second (apart i.1 j.1 i.2 j.2 less first)
  · exact Fin.ext same
  · exact absurd first (apart j.1 i.1 j.2 i.2 more second)

theorem name_not_generated :
    (declarations.get i).name ∉ (declarations.get j).generatedNames := by
  intro mem
  refine (List.nodup_append.mp distinct).2.2 _ (List.mem_map_of_mem (List.get_mem declarations i)) _
    (List.mem_flatMap.mpr ⟨_, List.get_mem declarations j, mem⟩) rfl

theorem localIndex_eq_some {name : String} {i : Fin declarations.length} :
    localIndex declarations name = some i ↔ name = (declarations.get i).name := by
  constructor
  · intro found
    have same : (declarations.get i).name = name := by simpa using List.find?_some found
    exact same.symm
  · rintro rfl
    cases found : localIndex declarations (declarations.get i).name with
    | none =>
      have missing := List.find?_eq_none.mp found i (List.mem_finRange i)
      simp at missing
    | some j =>
      have same : (declarations.get j).name = (declarations.get i).name := by
        simpa using List.find?_some found
      rw [names_injective distinct same]

theorem generatedIndex_eq_some {name : String} {i : Fin declarations.length} :
    generatedIndex declarations name = some i ↔ name ∈ (declarations.get i).generatedNames := by
  constructor
  · intro found
    simpa using List.find?_some found
  · intro mem
    cases found : generatedIndex declarations name with
    | none =>
      have missing := List.find?_eq_none.mp found i (by simp)
      exact absurd mem (by simpa using missing)
    | some j =>
      have other : name ∈ (declarations.get j).generatedNames := by
        simpa using List.find?_some found
      rw [generatedNames_injective distinct other mem]

/-- A name leads to the declaration that introduces it. -/
theorem index_eq_some {name : String} {i : Fin declarations.length} :
    (localIndex declarations name).or (generatedIndex declarations name) = some i ↔
      name = (declarations.get i).name ∨ name ∈ (declarations.get i).generatedNames := by
  rw [← generatedIndex_eq_some distinct, ← localIndex_eq_some distinct]
  cases found : localIndex declarations name with
  | some j =>
    have name_eq := (localIndex_eq_some distinct).mp found
    have notGenerated : generatedIndex declarations name ≠ some i := by
      intro generated
      have mem := (generatedIndex_eq_some distinct).mp generated
      rw [name_eq] at mem
      exact name_not_generated distinct mem
    simp [notGenerated]
  | none => simp

theorem mem_dependencies :
    j ∈ dependencies declarations i ↔
      DependsOn declarations (declarations.get i) (declarations.get j) := by
  have other : declarations.get j ≠ declarations.get i ↔ j ≠ i :=
    (get_injective distinct).ne_iff
  simp only [dependencies, List.mem_filter, List.mem_filterMap, index_eq_some distinct, DependsOn,
    List.get_mem, true_and, other, decide_eq_true_eq]
  exact and_comm

end Distinct

/-! ### The order of a list -/

section Spec

variable {declarations : List CoreDecl}

/-- The dependencies of a declaration, as the list has them. -/
def needed (declarations : List CoreDecl) (decl : CoreDecl) : List CoreDecl :=
  declarations.filter fun other => DependsOn declarations decl other

theorem mem_needed {decl other : CoreDecl} :
    other ∈ needed declarations decl ↔ DependsOn declarations decl other := by
  simp only [needed, List.mem_filter, decide_eq_true_eq]
  exact ⟨fun h => h.2, fun h => ⟨h.1, h⟩⟩

def emitOrder (declarations : List CoreDecl) : Except CoreDecl (List CoreDecl) :=
  Layers.emit (needed declarations) CoreDecl.key declarations []

/-- The numbers that the source works with stand for the declarations. -/
theorem emitOrder_toOption (distinct : (publicNames declarations).Nodup) :
    (emitOrder declarations).toOption =
      (Layers.emit (dependencies declarations) (fun i => (declarations.get i).key)
        (List.finRange _) []).toOption.map
        (List.map declarations.get) := by
  have need (i : Fin declarations.length) (b : CoreDecl) :
      b ∈ needed declarations (declarations.get i) ↔
        ∃ j ∈ dependencies declarations i, declarations.get j = b := by
    rw [mem_needed]
    constructor
    · intro depends
      obtain ⟨j, rfl⟩ := List.get_of_mem depends.1
      exact ⟨j, (mem_dependencies distinct).mpr depends, rfl⟩
    · rintro ⟨j, mem, rfl⟩
      exact (mem_dependencies distinct).mp mem
  have numbered : (Layers.emit (needed declarations) CoreDecl.key
      ((List.finRange _).map declarations.get) (List.map declarations.get [])).toOption = _ :=
    Layers.emit_map (get_injective distinct) need (fun _ => rfl) (List.finRange _) []
  rw [List.map_get_finRange] at numbered
  exact numbered

theorem canonicalDeclarationOrder_eq_ok {order : List CoreDecl} :
    canonicalDeclarationOrder declarations = .ok order ↔
      (publicNames declarations).Nodup ∧ emitOrder declarations = .ok order := by
  have toOption_ok {ε α : Type} {x : Except ε α} {a : α} : x = .ok a ↔ x.toOption = some a := by
    cases x <;> simp [Except.toOption]
  simp only [canonicalDeclarationOrder, Result.bind_eq_ok, ensureUniqueNames_start]
  constructor
  · rintro ⟨_, _, _, distinct, emitted⟩
    refine ⟨distinct, ?_⟩
    rw [toOption_ok, emitOrder_toOption distinct]
    split at emitted
    next numbers result =>
      rw [result]
      exact congrArg some (Except.ok.inj emitted)
    next => cases emitted
  · rintro ⟨distinct, emitted⟩
    refine ⟨(), (List.nodup_append.mp distinct).1, (), distinct, ?_⟩
    rw [toOption_ok, emitOrder_toOption distinct] at emitted
    split
    next numbers result =>
      rw [result] at emitted
      exact congrArg Except.ok (Option.some.inj emitted)
    next index result =>
      rw [result] at emitted
      cases emitted

theorem dependsOn_perm {permuted : List CoreDecl} (perm : permuted.Perm declarations)
    (decl other : CoreDecl) :
    DependsOn permuted decl other ↔ DependsOn declarations decl other := by
  rw [DependsOn, DependsOn, perm.mem_iff]

theorem publicNames_perm {permuted : List CoreDecl} (perm : permuted.Perm declarations) :
    (publicNames permuted).Perm (publicNames declarations) :=
  (perm.map _).append (perm.flatMap_right _)

theorem key_injective (distinct : (publicNames declarations).Nodup) :
    ∀ a ∈ declarations, ∀ b ∈ declarations, a.key = b.key → a = b := by
  intro a ha b hb same
  obtain ⟨i, rfl⟩ := List.get_of_mem ha
  obtain ⟨j, rfl⟩ := List.get_of_mem hb
  rw [names_injective distinct (nameComponents_injective same)]

/-- The order does not depend on the order of the list. -/
theorem canonicalDeclarationOrder_perm {permuted order : List CoreDecl}
    (perm : permuted.Perm declarations) (h : canonicalDeclarationOrder declarations = .ok order) :
    canonicalDeclarationOrder permuted = .ok order := by
  obtain ⟨distinct, emitted⟩ := canonicalDeclarationOrder_eq_ok.mp h
  refine canonicalDeclarationOrder_eq_ok.mpr
    ⟨(publicNames_perm perm).nodup_iff.mpr distinct, Result.ok_of_toOption ?_⟩
  have same : (emitOrder declarations).toOption = (emitOrder permuted).toOption := by
    refine Layers.emit_eq_of_perm perm.symm (fun a _ b => ?_) (key_injective distinct)
    rw [mem_needed, mem_needed, dependsOn_perm perm]
  rw [← same, emitted]
  rfl

theorem cyclic_iff {decl : CoreDecl} :
    Layers.Cyclic (needed declarations) decl ↔
      Relation.TransGen (DependsOn declarations) decl decl := by
  simp only [Layers.Cyclic, mem_needed]

/-- A canonical order exists exactly when the declarations introduce distinct names and none
    depends on itself through others. It is then a permutation of the declarations in which
    each comes after those it depends on, every permutation of the declarations has the same
    order, and so has the order itself. -/
theorem canonicalDeclarationOrder_spec (declarations : List CoreDecl) :
    ((∃ order, canonicalDeclarationOrder declarations = .ok order) ↔
      (publicNames declarations).Nodup ∧
        ∀ decl ∈ declarations, ¬Relation.TransGen (DependsOn declarations) decl decl) ∧
    ∀ order, canonicalDeclarationOrder declarations = .ok order →
      order.Perm declarations ∧
      (∀ (i j : Fin order.length), DependsOn declarations (order.get i) (order.get j) → j < i) ∧
      (∀ permuted, permuted.Perm declarations → canonicalDeclarationOrder permuted = .ok order) ∧
      canonicalDeclarationOrder order = .ok order := by
  refine ⟨?_, fun order ordered => ?_⟩
  · simp only [canonicalDeclarationOrder_eq_ok, exists_and_left, ← cyclic_iff]
    refine and_congr_right fun distinct => Layers.emit_ok_iff ?_ fun a _ b need => ?_
    · exact List.Nodup.of_map _ (List.nodup_append.mp distinct).1
    · exact (mem_needed.mp need).1
  · obtain ⟨distinct, emitted⟩ := canonicalDeclarationOrder_eq_ok.mp ordered
    have perm : order.Perm declarations := Layers.emit_perm emitted
    have settled : Layers.Settled (needed declarations) order :=
      Layers.emit_settled Layers.settled_nil emitted
    have nodup : order.Nodup :=
      perm.nodup_iff.mpr (List.Nodup.of_map _ (List.nodup_append.mp distinct).1)
    refine ⟨perm, fun i j depends => ?_,
      fun permuted p => canonicalDeclarationOrder_perm p ordered,
      canonicalDeclarationOrder_perm perm ordered⟩
    obtain ⟨k, hk, same⟩ := List.mem_take_iff_getElem.mp
      (settled i.1 i.2 (order.get j) (mem_needed.mpr depends))
    have position : k = j.1 := (nodup.getElem_inj_iff).mp same
    exact Fin.lt_def.mpr (position ▸ Nat.lt_of_lt_of_le hk (Nat.min_le_left _ _))

/-- An inductive declaration whose constructor has the name of an axiom: the names of the two
    declarations differ and neither depends on the other, and they have no order. -/
theorem canonicalDeclarationOrder_rejects_generated :
    ¬ ∀ declarations : List CoreDecl, (declarations.map CoreDecl.name).Nodup →
      ((∃ order, canonicalDeclarationOrder declarations = .ok order) ↔
        ∀ decl ∈ declarations, ¬Relation.TransGen (DependsOn declarations) decl decl) := by
  intro ordered
  let declarations : List CoreDecl := [
    .single (.axiomDecl "c" [] [] (.sort .zero)),
    .single (.inductiveDecl "I" [] (.sort (.succ .zero))
      ⟨"I", [], [], [], [], .succ .zero, [⟨"c", .const "I" []⟩], none⟩)]
  have independent : ∀ decl ∈ declarations, ∀ other ∈ declarations,
      ¬DependsOn declarations decl other := by
    decide +kernel
  obtain ⟨order, exists_order⟩ := (ordered declarations (by decide +kernel)).mpr
    fun decl mem cycle => by
      obtain ⟨other, depends, _⟩ := Relation.TransGen.head'_iff.mp cycle
      exact independent decl mem other depends.1 depends
  have distinct := (canonicalDeclarationOrder_eq_ok.mp exists_order).1
  exact absurd distinct (by decide +kernel)

end Spec

end NpaCore.Certificate
