import NpaCore.Certificate.DeclarationOrder

/-!
# The verifier's order of declarations

`verify_declaration_order` of `npa-cert/src/verify.rs` finds the order of the declarations of a
certificate from the dependencies that are recorded there, and accepts the certificate when it
is the order in which they stand. The builder found the order from the constants, before there
were dependencies to record.

A recorded dependency on an implementation that does not stand earlier is left to the check of
the implementations. Together the two checks accept the builder's order and no other.

## Main results

* `verifyDeclarationOrder_eq_ok_iff`: what the verifier accepts, as an emission in layers.
* `verifyDeclarationOrder_iff_canonical`: the accepted permutation is the builder's.
-/

namespace NpaCore.Certificate

open NpaCore.Result NpaCore.Layers

/-! ### Keys -/

/-- The comparison of lists is lexicographic. -/
theorem compareLex_iff {α : Type} [LinearOrder α] {cmp : α → α → Ordering}
    (less : ∀ a b, cmp a b = .lt ↔ a < b) (same : ∀ a b, cmp a b = .eq ↔ a = b)
    (xs ys : List α) :
    (List.compareLex cmp xs ys = .lt ↔ xs < ys) ∧ (List.compareLex cmp xs ys = .eq ↔ xs = ys) := by
  induction xs generalizing ys with
  | nil => cases ys <;> simp [List.compareLex]
  | cons x xs ih =>
    cases ys with
    | nil => simp [List.compareLex]
    | cons y ys =>
      rw [List.compareLex_cons_cons, List.cons_lt_cons_iff, List.cons.injEq, ← same x y,
        ← less x y]
      cases order : cmp x y with
      | lt => simp [Ordering.then]
      | eq => simpa [Ordering.then] using ih ys
      | gt => simp [Ordering.then]

/-- The verifier sorts by names as the builder does. -/
theorem nameComponents_isLE (x y : List (List Char)) : (compare x y).isLE = decide (x ≤ y) := by
  have chars : ∀ a b : List Char, (compare a b = .lt ↔ a < b) ∧ (compare a b = .eq ↔ a = b) := by
    intro a b
    exact compareLex_iff (fun _ _ => compare_lt_iff_lt) (fun _ _ => compare_eq_iff_eq) a b
  have names : (compare x y = .lt ↔ x < y) ∧ (compare x y = .eq ↔ x = y) :=
    compareLex_iff (fun a b => (chars a b).1) (fun a b => (chars a b).2) x y
  rw [Bool.eq_iff_iff, decide_eq_true_eq, le_iff_lt_or_eq, ← names.1, ← names.2]
  cases compare x y <;> simp

/-! ### The loop of the verifier -/

section Loop

variable (names : List String) (dependencies : List (List Nat))

def indexNeeds (index : Nat) : List Nat := (dependencies[index]?).getD []

def indexKey (index : Nat) : List (List Char) := nameComponents ((names[index]?).getD "")

/-- The turns suffice: the loop is the emission in layers, and it is stuck where that is. -/
theorem layeredOrder_eq {turns : Nat} {remaining emitted : List Nat}
    (enough : remaining.length ≤ turns) :
    layeredOrder names dependencies turns remaining emitted =
      match emit (indexNeeds dependencies) (indexKey names) remaining emitted with
      | .ok order => .ok order
      | .error first => .error (.dependencyCycle ((names[first]?).getD "")) := by
  induction turns generalizing remaining emitted with
  | zero =>
    obtain rfl : remaining = [] := List.eq_nil_of_length_eq_zero (Nat.le_zero.mp enough)
    rw [layeredOrder, emit]
  | succ turns ih =>
    cases remaining with
    | nil => rw [layeredOrder, emit]
    | cons first rest =>
      have layer : ((first :: rest).filter fun index =>
          ((dependencies[index]?).getD []).all emitted.contains) =
          ready (indexNeeds dependencies) emitted (first :: rest) := rfl
      have sorted : ∀ items : List Nat, (items.insertionSort fun x y =>
          (compare (nameComponents ((names[x]?).getD "")) (nameComponents ((names[y]?).getD ""))).isLE) =
          sortByKey (indexKey names) items := by
        intro items
        simp only [nameComponents_isLE, decide_eq_true_eq, sortByKey, indexKey]
        congr!
      rw [layeredOrder]
      simp only [layer, sorted]
      by_cases empty : ready (indexNeeds dependencies) emitted (first :: rest) = []
      · rw [emit_stuck empty, empty]
        rfl
      · rw [emit_round empty, if_neg (by simpa using empty)]
        apply ih
        have shorter := left_length_lt empty
        omega

end Loop

/-! ### What the verifier accepts -/

/-- The declarations that an entry puts before its own, whatever the kind of the entry. -/
def DependencyEntry.localTarget : DependencyEntry → Option Nat
  | .interface (.local target) _ | .interface (.localGenerated target _) _
  | .localImplementation (.local target) _ _ => some target
  | _ => none

/-- A dependency of one declaration on another is recorded. -/
def Recorded (cert : ModuleCert) (declIndex target : Nat) : Prop :=
  ∃ declaration, cert.declarations[declIndex]? = some declaration ∧
    ∃ entry ∈ declaration.dependencies, entry.localTarget = some target

/-- Every entry on an implementation names an earlier declaration.
    `validate_local_implementation_entries` demands this of each entry. -/
def ImplementationsEarlier (cert : ModuleCert) : Prop :=
  ∀ (declIndex : Nat) (declaration : DeclCert), cert.declarations[declIndex]? = some declaration →
    ∀ target interfaceHash certificateHash,
      .localImplementation (.local target) interfaceHash certificateHash ∈ declaration.dependencies →
      target < declIndex

/-- The loop over the entries does not fail on this one. -/
def EntryOrdered (cert : ModuleCert) (declIndex : Nat) : DependencyEntry → Prop
  | .interface (.local target) _ => target < declIndex
  | .interface (.localGenerated target name) _ => target < declIndex ∧
    ∃ decl, cert.declarations[target]? = some decl ∧ decl.decl.generatesName name = true
  | _ => True

/-- Entries on implementations that are not earlier are passed over. -/
def earlierTargets (declIndex : Nat) (entry : DependencyEntry) : List Nat :=
  (entry.localTarget.filter (· < declIndex)).toList

theorem mem_earlierTargets {declIndex target : Nat} {entry : DependencyEntry} :
    target ∈ earlierTargets declIndex entry ↔
      entry.localTarget = some target ∧ target < declIndex := by
  simp [earlierTargets, Option.filter_eq_some_iff]

theorem orderDependency_eq_ok {cert : ModuleCert} {declIndex : Nat} {name : String}
    {entry : DependencyEntry} {targets : List Nat} :
    orderDependency cert declIndex name entry = .ok targets ↔
      EntryOrdered cert declIndex entry ∧ targets = earlierTargets declIndex entry := by
  cases entry with
  | interface ref hash =>
    cases ref with
    | builtin _ _ | imported _ _ _ =>
      simp [orderDependency, EntryOrdered, earlierTargets, DependencyEntry.localTarget, eq_comm]
    | «local» target =>
      simp only [orderDependency, EntryOrdered, earlierTargets, DependencyEntry.localTarget,
        bind_eq_ok, ensure_eq_ok, decide_eq_true_eq, Except.ok.injEq]
      constructor
      · rintro ⟨_, earlier, rfl⟩
        exact ⟨earlier, by simp [Option.filter, earlier]⟩
      · rintro ⟨earlier, rfl⟩
        exact ⟨(), earlier, by simp [Option.filter, earlier]⟩
    | localGenerated target generated =>
      simp only [orderDependency, EntryOrdered, earlierTargets, DependencyEntry.localTarget,
        bind_eq_ok, ensure_eq_ok, okOr_eq_ok, decide_eq_true_eq, Except.ok.injEq]
      constructor
      · rintro ⟨_, earlier, decl, there, _, generates, rfl⟩
        exact ⟨⟨earlier, decl, there, generates⟩, by simp [Option.filter, earlier]⟩
      · rintro ⟨⟨earlier, decl, there, generates⟩, rfl⟩
        exact ⟨(), earlier, decl, there, (), generates, by simp [Option.filter, earlier]⟩
  | localImplementation ref hash certificateHash =>
    cases ref with
    | «local» target =>
      simp only [orderDependency, EntryOrdered, earlierTargets, DependencyEntry.localTarget,
        Except.ok.injEq, true_and]
      by_cases earlier : target < declIndex
      · simp [Option.filter, earlier, eq_comm]
      · simp [Option.filter, earlier, eq_comm]
    | builtin _ _ | imported _ _ _ | localGenerated _ _ =>
      simp [orderDependency, EntryOrdered, earlierTargets, DependencyEntry.localTarget, eq_comm]

/-- What the loop over the entries puts before a declaration. -/
def earlierNeeds (cert : ModuleCert) (declIndex : Nat) : List Nat :=
  (cert.declarations[declIndex]?).elim [] fun declaration =>
    declaration.dependencies.flatMap (earlierTargets declIndex)

theorem mem_earlierNeeds {cert : ModuleCert} {declIndex target : Nat} :
    target ∈ earlierNeeds cert declIndex ↔
      Recorded cert declIndex target ∧ target < declIndex := by
  rw [earlierNeeds, Recorded]
  cases cert.declarations[declIndex]? with
  | none => simp
  | some declaration => simp [mem_earlierTargets, ← and_assoc, exists_and_right]

/-- The loops over the entries do not fail. -/
def EntriesOrdered (cert : ModuleCert) : Prop :=
  ∀ (declIndex : Nat) (declaration : DeclCert), cert.declarations[declIndex]? = some declaration →
    ∀ entry ∈ declaration.dependencies, EntryOrdered cert declIndex entry

/-- The names of the declarations of a certificate. -/
def ModuleCert.declNames (cert : ModuleCert) : List String :=
  cert.declarations.map (·.decl.primaryName)

theorem collectDependencies_eq_ok {cert : ModuleCert} {dependencies : List (List Nat)} :
    (Result.collect cert.declarations.zipIdx fun (decl, declIndex) => do
      let parts ← Result.collect decl.dependencies
        (orderDependency cert declIndex decl.decl.primaryName)
      .ok parts.flatten) = .ok dependencies ↔
      EntriesOrdered cert ∧ dependencies = cert.declarations.zipIdx.map fun entry =>
        entry.1.dependencies.flatMap (earlierTargets entry.2) := by
  have each : ∀ entry ∈ cert.declarations.zipIdx, ∀ targets,
      (do
        let parts ← Result.collect entry.1.dependencies
          (orderDependency cert entry.2 entry.1.decl.primaryName)
        (.ok parts.flatten : CertResult (List Nat))) = .ok targets ↔
      (∀ e ∈ entry.1.dependencies, EntryOrdered cert entry.2 e) ∧
        targets = entry.1.dependencies.flatMap (earlierTargets entry.2) := by
    intro entry _ targets
    simp only [bind_eq_ok, collect_eq_ok_map fun _ _ _ => orderDependency_eq_ok, Except.ok.injEq]
    constructor
    · rintro ⟨_, ⟨ordered, rfl⟩, rfl⟩
      exact ⟨ordered, List.flatMap_def.symm⟩
    · rintro ⟨ordered, rfl⟩
      exact ⟨_, ⟨ordered, rfl⟩, List.flatMap_def.symm⟩
  rw [collect_eq_ok_map each]
  simp only [EntriesOrdered, Prod.forall, List.mem_zipIdx_iff_getElem?]
  constructor
  · rintro ⟨ordered, rfl⟩
    exact ⟨fun declIndex declaration here => ordered declaration declIndex here, rfl⟩
  · rintro ⟨ordered, rfl⟩
    exact ⟨fun declaration declIndex here => ordered declIndex declaration here, rfl⟩

/-- The verifier accepts when its emission in layers is the order of the certificate. -/
theorem verifyDeclarationOrder_eq_ok_iff {cert : ModuleCert} :
    verifyDeclarationOrder cert = .ok () ↔
      cert.declNames.Nodup ∧ EntriesOrdered cert ∧
        emit (earlierNeeds cert) (indexKey cert.declNames)
          (List.range cert.declarations.length) [] = .ok (List.range cert.declarations.length) := by
  have needs : indexNeeds (cert.declarations.zipIdx.map fun entry =>
      entry.1.dependencies.flatMap (earlierTargets entry.2)) = earlierNeeds cert := by
    funext declIndex
    rw [indexNeeds, earlierNeeds, List.getElem?_map, List.getElem?_zipIdx]
    cases cert.declarations[declIndex]? with
    | none => rfl
    | some declaration => simp
  have loop : ∀ dependencies, indexNeeds dependencies = earlierNeeds cert →
      ∀ order, layeredOrder cert.declNames dependencies cert.declarations.length
          (List.range cert.declarations.length) [] = .ok order ↔
        emit (earlierNeeds cert) (indexKey cert.declNames)
          (List.range cert.declarations.length) [] = .ok order := by
    intro dependencies same order
    rw [layeredOrder_eq _ _ List.length_range.le, same]
    cases emit (earlierNeeds cert) (indexKey cert.declNames) _ [] <;> simp
  simp only [verifyDeclarationOrder, bind_eq_ok, ensureUniqueNames_start,
    collectDependencies_eq_ok, ensure_eq_ok, decide_eq_true_eq]
  constructor
  · rintro ⟨_, distinct, _, ⟨ordered, rfl⟩, order, emitted, rfl⟩
    exact ⟨distinct, ordered, (loop _ needs _).mp emitted⟩
  · rintro ⟨distinct, ordered, emitted⟩
    exact ⟨(), distinct, _, ⟨ordered, rfl⟩, _, (loop _ needs _).mpr emitted, rfl⟩

/-! ### The order of the builder -/

/-- The declarations of the certificate are those of the list, in the same order, with the
    dependencies that the builder found. Dependencies through others may be recorded too, as
    they are for the implementations that a definition unfolds to. -/
structure Records (cert : ModuleCert) (order : List CoreDecl) : Prop where
  names : cert.declNames = order.map CoreDecl.name
  direct : ∀ i j : Fin order.length, DependsOn order (order.get i) (order.get j) →
    Recorded cert i j
  reached : ∀ (i : Fin order.length) target, Recorded cert i target →
    ∃ j : Fin order.length, j.1 = target ∧
      Relation.TransGen (DependsOn order) (order.get i) (order.get j)
  generated : ∀ declaration ∈ cert.declarations, ∀ target name hash,
    .interface (.localGenerated target name) hash ∈ declaration.dependencies →
    ∃ decl, cert.declarations[target]? = some decl ∧ decl.decl.generatesName name = true

section Agreement

variable {cert : ModuleCert} {order : List CoreDecl}

theorem Records.length (records : Records cert order) :
    cert.declarations.length = order.length := by
  have same := congrArg List.length records.names
  simpa [ModuleCert.declNames] using same

theorem Records.key (records : Records cert order) (i : Fin order.length) :
    indexKey cert.declNames i = (order.get i).key := by
  rw [indexKey, records.names, List.getElem?_map, List.getElem?_eq_getElem i.2]
  rfl

/-- Every recorded dependency is on an earlier declaration. -/
def RecordedEarlier (cert : ModuleCert) : Prop :=
  ∀ declIndex target, Recorded cert declIndex target → target < declIndex

/-- The order check sees to the interfaces and the check of implementations to the rest. -/
theorem recordedEarlier_iff (records : Records cert order) :
    RecordedEarlier cert ↔ EntriesOrdered cert ∧ ImplementationsEarlier cert := by
  constructor
  · intro earlier
    constructor
    · intro declIndex declaration here entry mem
      have targets : ∀ target, entry.localTarget = some target → target < declIndex :=
        fun target named => earlier declIndex target ⟨declaration, here, entry, mem, named⟩
      match entry, mem, targets with
      | .interface (.local target) _, _, targets => exact targets target rfl
      | .interface (.localGenerated target name) hash, mem, targets =>
        have exists_decl := records.generated declaration (List.mem_of_getElem? here) target name
          hash mem
        exact ⟨targets target rfl, exists_decl⟩
      | .interface (.builtin _ _) _, _, _ => trivial
      | .interface (.imported _ _ _) _, _, _ => trivial
      | .localImplementation _ _ _, _, _ => trivial
    · intro declIndex declaration here target interfaceHash certificateHash mem
      exact earlier declIndex target ⟨declaration, here, _, mem, rfl⟩
  · rintro ⟨ordered, implementations⟩ declIndex target ⟨declaration, here, entry, mem, named⟩
    have checked := ordered declIndex declaration here entry mem
    match entry, mem, named, checked with
    | .interface (.local _) _, _, rfl, checked => exact checked
    | .interface (.localGenerated _ _) _, _, rfl, checked => exact checked.1
    | .localImplementation (.local _) _ _, mem, rfl, _ =>
      exact implementations declIndex declaration here _ _ _ mem

/-- The recorded dependencies of a declaration, among the declarations of the list. -/
def recordedNeeds (cert : ModuleCert) (order : List CoreDecl) (i : Fin order.length) :
    List (Fin order.length) :=
  (List.finRange order.length).filter fun j => (earlierNeeds cert i).contains j.1

theorem mem_recordedNeeds {i j : Fin order.length} :
    j ∈ recordedNeeds cert order i ↔ j.1 ∈ earlierNeeds cert i := by
  simp [recordedNeeds]

/-- The verifier's numbers are the places of the list. -/
theorem emit_range_iff (records : Records cert order) :
    emit (earlierNeeds cert) (indexKey cert.declNames)
        (List.range cert.declarations.length) [] = .ok (List.range cert.declarations.length) ↔
      emit (recordedNeeds cert order) (fun i => (order.get i).key)
        (List.finRange order.length) [] = .ok (List.finRange order.length) := by
  have range : List.range cert.declarations.length =
      (List.finRange order.length).map Fin.val := by
    rw [records.length, List.map_coe_finRange_eq_range]
  have need : ∀ (i : Fin order.length) (b : Nat), b ∈ earlierNeeds cert i ↔
      ∃ j ∈ recordedNeeds cert order i, j.1 = b := by
    intro i b
    constructor
    · intro mem
      have inside : b < order.length := (mem_earlierNeeds.mp mem).2.trans i.2
      exact ⟨⟨b, inside⟩, mem_recordedNeeds.mpr mem, rfl⟩
    · rintro ⟨j, mem, rfl⟩
      exact mem_recordedNeeds.mp mem
  have numbered : (emit (earlierNeeds cert) (indexKey cert.declNames)
      ((List.finRange order.length).map Fin.val) (List.map Fin.val [])).toOption = _ :=
    emit_map Fin.val_injective need records.key (List.finRange order.length) []
  have toOption_ok : ∀ {ε α : Type} {x : Except ε α} {a : α}, x = .ok a ↔ x.toOption = some a := by
    intro ε α x a
    cases x <;> simp [Except.toOption]
  rw [range, toOption_ok, toOption_ok]
  rw [List.map_nil] at numbered
  rw [numbered, Option.map_eq_some_iff]
  constructor
  · rintro ⟨places, emitted, same⟩
    rw [emitted, List.map_injective_iff.mpr Fin.val_injective same]
  · exact fun emitted => ⟨_, emitted, rfl⟩

/-- The list is its own canonical order when the emission leaves it as it is. -/
theorem canonicalDeclarationOrder_self_iff (distinct : (publicNames order).Nodup) :
    canonicalDeclarationOrder order = .ok order ↔
      emit (dependencies order) (fun i => (order.get i).key) (List.finRange order.length) [] =
        .ok (List.finRange order.length) := by
  have names : (order.map CoreDecl.name).Nodup := (List.nodup_append.mp distinct).1
  simp only [canonicalDeclarationOrder, bind_eq_ok, ensureUniqueNames_start]
  constructor
  · rintro ⟨_, _, _, _, emitted⟩
    split at emitted
    next places result =>
      have same : places.map order.get = (List.finRange order.length).map order.get := by
        rw [List.map_get_finRange]
        exact Except.ok.inj emitted
      rw [result, List.map_injective_iff.mpr (get_injective distinct) same]
    next => cases emitted
  · intro emitted
    exact ⟨(), names, (), distinct, by rw [emitted]; exact congrArg _ (List.map_get_finRange order)⟩

/-- Dependencies through others, between the places of the list. -/
theorem transGen_dependencies (distinct : (publicNames order).Nodup) {i : Fin order.length}
    {decl : CoreDecl} (reach : Relation.TransGen (DependsOn order) (order.get i) decl) :
    ∃ j, order.get j = decl ∧
      Relation.TransGen (fun a b => b ∈ dependencies order a) i j := by
  induction reach with
  | single depends =>
    obtain ⟨j, rfl⟩ := List.get_of_mem depends.1
    exact ⟨j, rfl, .single ((mem_dependencies distinct).mpr depends)⟩
  | tail _ depends ih =>
    obtain ⟨k, rfl, first⟩ := ih
    obtain ⟨j, rfl⟩ := List.get_of_mem depends.1
    exact ⟨j, rfl, first.tail ((mem_dependencies distinct).mpr depends)⟩

/-- An emission that leaves the list as it is has dependencies first. -/
theorem recordedEarlier_of_emit (records : Records cert order) (distinct : (publicNames order).Nodup)
    (emitted : emit (dependencies order) (fun i => (order.get i).key)
      (List.finRange order.length) [] = .ok (List.finRange order.length)) :
    RecordedEarlier cert := by
  intro declIndex target recorded
  have settled : Settled (dependencies order) (List.finRange order.length) :=
    emit_settled settled_nil emitted
  obtain ⟨declaration, here, _⟩ := id recorded
  have inside : declIndex < order.length := by
    rw [← records.length]
    exact (List.getElem?_eq_some_iff.mp here).1
  obtain ⟨j, rfl, reach⟩ := records.reached ⟨declIndex, inside⟩ target recorded
  obtain ⟨k, same, places⟩ := transGen_dependencies distinct reach
  obtain rfl : k = j := get_injective distinct same
  have place : declIndex < (List.finRange order.length).length := by
    rwa [List.length_finRange]
  have here : (List.finRange order.length)[declIndex] = ⟨declIndex, inside⟩ := by simp
  rw [← here] at places
  obtain ⟨position, before, found⟩ := List.mem_take_iff_getElem.mp (settled.reaches place places)
  have value : k.1 = position := by
    rw [← found]
    simp
  omega

/-- What is recorded lies between the dependencies and the dependencies through others. -/
theorem emit_recorded_eq (records : Records cert order) (distinct : (publicNames order).Nodup)
    (earlier : RecordedEarlier cert) :
    emit (dependencies order) (fun i => (order.get i).key) (List.finRange order.length) [] =
      emit (recordedNeeds cert order) (fun i => (order.get i).key)
        (List.finRange order.length) [] := by
  apply emit_eq_of_reach
  · intro a mem
    cases mem
  · intro i _ j need
    have recorded := records.direct i j ((mem_dependencies distinct).mp need)
    exact mem_recordedNeeds.mpr (mem_earlierNeeds.mpr ⟨recorded, earlier i j recorded⟩)
  · intro i _ j need
    have recorded := (mem_earlierNeeds.mp (mem_recordedNeeds.mp need)).1
    obtain ⟨k, same, reach⟩ := records.reached i j recorded
    obtain rfl : k = j := Fin.ext same
    obtain ⟨l, same, places⟩ := transGen_dependencies distinct reach
    obtain rfl : l = k := get_injective distinct same
    exact places

end Agreement

/-- For declarations that introduce distinct names: a permutation of them that is recorded with
    their dependencies passes the verifier's order check and the check that implementations are
    earlier exactly when it is the order that the builder finds for them. -/
theorem verifyDeclarationOrder_iff_canonical {declarations order : List CoreDecl}
    {cert : ModuleCert} (perm : order.Perm declarations)
    (distinct : (publicNames declarations).Nodup) (records : Records cert order) :
    (verifyDeclarationOrder cert = .ok () ∧ ImplementationsEarlier cert) ↔
      canonicalDeclarationOrder declarations = .ok order := by
  have distinct' : (publicNames order).Nodup := (publicNames_perm perm).nodup_iff.mpr distinct
  have names : cert.declNames.Nodup := by
    rw [records.names]
    exact (List.nodup_append.mp distinct').1
  have itself : canonicalDeclarationOrder declarations = .ok order ↔
      canonicalDeclarationOrder order = .ok order :=
    ⟨canonicalDeclarationOrder_perm perm, canonicalDeclarationOrder_perm perm.symm⟩
  rw [itself, canonicalDeclarationOrder_self_iff distinct', verifyDeclarationOrder_eq_ok_iff,
    emit_range_iff records]
  constructor
  · rintro ⟨⟨_, ordered, emitted⟩, implementations⟩
    have earlier := (recordedEarlier_iff records).mpr ⟨ordered, implementations⟩
    rw [emit_recorded_eq records distinct' earlier]
    exact emitted
  · intro emitted
    have earlier := recordedEarlier_of_emit records distinct' emitted
    obtain ⟨ordered, implementations⟩ := (recordedEarlier_iff records).mp earlier
    rw [emit_recorded_eq records distinct' earlier] at emitted
    exact ⟨⟨names, ordered, emitted⟩, implementations⟩

/-! ### A definition and one that it unfolds to -/

/-- An opaque definition. -/
def hiddenDecl : CoreDecl :=
  .single (.defDecl "hidden" [] [] (.sort (.succ .zero)) (.sort .zero) .opaqueDef)

/-- A definition that is the opaque one. -/
def aliasDecl : CoreDecl :=
  .single (.defDecl "alias" [] [] (.sort (.succ .zero)) (.const "hidden" []) .reducible)

def hiddenCert : DeclCert where
  decl := .defDecl "hidden" [] [] (.sort (.succ .zero)) (.sort .zero) .opaqueDef
  dependencies := []
  axiomDependencies := []
  hashes := ⟨"interface", "certificate"⟩

/-- The definition with its dependency on the implementation of the opaque one. -/
def aliasCert (hidden : Nat) : DeclCert where
  decl := .defDecl "alias" [] [] (.sort (.succ .zero)) (.const (.local hidden) []) .reducible
  dependencies := [.localImplementation (.local hidden) "interface" "certificate"]
  axiomDependencies := []
  hashes := ⟨"interface of alias", "certificate of alias"⟩

def aliasModule (declarations : List DeclCert) : ModuleCert where
  module := "Aliases"
  imports := []
  nameTable := ["alias", "hidden"]
  declarations := declarations
  exportBlock := []
  axiomReport := ⟨[], []⟩
  exportHash := ""
  certificateHash := ""

/-- No entry of the two modules is on something that is generated. -/
theorem aliasModule_generated {declarations : List DeclCert}
    (only : ∀ declaration ∈ declarations, declaration = hiddenCert ∨
      ∃ hidden, declaration = aliasCert hidden) :
    ∀ declaration ∈ (aliasModule declarations).declarations, ∀ target name hash,
      .interface (.localGenerated target name) hash ∈ declaration.dependencies →
      ∃ decl, (aliasModule declarations).declarations[target]? = some decl ∧
        decl.decl.generatesName name = true := by
  intro declaration mem target name hash entry
  rcases only declaration mem with rfl | ⟨hidden, rfl⟩
  · cases entry
  · cases List.mem_singleton.mp entry

/-- The opaque definition first. -/
theorem records_hidden_alias :
    Records (aliasModule [hiddenCert, aliasCert 0]) [hiddenDecl, aliasDecl] where
  names := by decide +kernel
  direct := by
    have only : ∀ i j : Fin 2, DependsOn [hiddenDecl, aliasDecl]
        ([hiddenDecl, aliasDecl].get i) ([hiddenDecl, aliasDecl].get j) → i = 1 ∧ j = 0 := by
      decide +kernel
    intro i j depends
    obtain ⟨rfl, rfl⟩ := only i j depends
    exact ⟨aliasCert 0, rfl, _, List.mem_singleton_self _, rfl⟩
  reached := by
    rintro i target ⟨declaration, here, entry, mem, named⟩
    match i, here with
    | 0, here =>
      cases here
      cases mem
    | 1, here =>
      cases here
      obtain rfl := List.mem_singleton.mp mem
      cases named
      exact ⟨0, rfl, .single (by decide +kernel)⟩
  generated := aliasModule_generated (by simp)

/-- The opaque definition last. -/
theorem records_alias_hidden :
    Records (aliasModule [aliasCert 1, hiddenCert]) [aliasDecl, hiddenDecl] where
  names := by decide +kernel
  direct := by
    have only : ∀ i j : Fin 2, DependsOn [aliasDecl, hiddenDecl]
        ([aliasDecl, hiddenDecl].get i) ([aliasDecl, hiddenDecl].get j) → i = 0 ∧ j = 1 := by
      decide +kernel
    intro i j depends
    obtain ⟨rfl, rfl⟩ := only i j depends
    exact ⟨aliasCert 1, rfl, _, List.mem_singleton_self _, rfl⟩
  reached := by
    rintro i target ⟨declaration, here, entry, mem, named⟩
    match i, here with
    | 0, here =>
      cases here
      obtain rfl := List.mem_singleton.mp mem
      cases named
      exact ⟨1, rfl, .single (by decide +kernel)⟩
    | 1, here =>
      cases here
      cases mem
  generated := aliasModule_generated (by simp)

theorem verifyDeclarationOrder_iff_canonical_at_alias :
    (verifyDeclarationOrder (aliasModule [hiddenCert, aliasCert 0]) = .ok () ∧
      ImplementationsEarlier (aliasModule [hiddenCert, aliasCert 0])) ↔
    canonicalDeclarationOrder [aliasDecl, hiddenDecl] = .ok [hiddenDecl, aliasDecl] :=
  verifyDeclarationOrder_iff_canonical (.swap _ _ _) (by decide +kernel) records_hidden_alias

/-- The order check alone accepts the alias before the definition that it unfolds to: the check
    of implementations rejects it. -/
theorem verifyDeclarationOrder_accepts_later_implementation :
    ¬ ∀ (declarations order : List CoreDecl) (cert : ModuleCert), order.Perm declarations →
      (publicNames declarations).Nodup →
      (∀ decl ∈ declarations, ¬Relation.TransGen (DependsOn declarations) decl decl) →
      Records cert order →
      (verifyDeclarationOrder cert = .ok () ↔
        canonicalDeclarationOrder declarations = .ok order) := by
  intro agree
  have only : ∀ x ∈ [aliasDecl, hiddenDecl], ∀ y ∈ [aliasDecl, hiddenDecl],
      DependsOn [aliasDecl, hiddenDecl] x y → x = aliasDecl ∧ y = hiddenDecl := by
    decide +kernel
  have acyclic : ∀ decl ∈ [aliasDecl, hiddenDecl],
      ¬Relation.TransGen (DependsOn [aliasDecl, hiddenDecl]) decl decl := by
    intro decl mem cycle
    obtain ⟨first, leaves, back⟩ := Relation.TransGen.head'_iff.mp cycle
    obtain ⟨rfl, rfl⟩ := only decl mem first leaves.1 leaves
    -- The opaque definition depends on nothing, so there is no way back.
    rcases Relation.ReflTransGen.cases_head back with same | ⟨next, depends, _⟩
    · exact absurd same (by decide +kernel)
    · exact absurd (only hiddenDecl (by simp) next depends.1 depends).1 (by decide +kernel)
  have distinct : (publicNames [aliasDecl, hiddenDecl]).Nodup := by decide +kernel
  have accepted : verifyDeclarationOrder (aliasModule [aliasCert 1, hiddenCert]) = .ok () := by
    decide +kernel
  have canonical := (agree _ _ _ (.refl _) distinct acyclic records_alias_hidden).mp accepted
  have emitted := (canonicalDeclarationOrder_self_iff distinct).mp canonical
  have earlier := recordedEarlier_of_emit records_alias_hidden distinct emitted
  have self : 1 < 0 := earlier 0 1 ⟨aliasCert 1, rfl, _, List.mem_singleton_self _, rfl⟩
  omega

end NpaCore.Certificate
