import NpaCore.Package.LockIndexExact

/-!
# Layers of a selection

The one pass that assigns layers in dependency order computes longest chains.

## Main result

`topologicalLayers_exact`: an entry is in the layer of its longest chain of selected entries.
-/

namespace NpaCore.Package

open NpaCore.Table
open NpaCore.Wire (Name)

/-! ### Chains -/

/-- A chain with this number of steps goes down from the entry, over members only. -/
inductive ChainBelow (leads : Nat → Nat → Prop) (selected : Nat → Prop) : Nat → Nat → Prop where
  | single {entry : Nat} : selected entry → ChainBelow leads selected 0 entry
  | step {entry dependency length : Nat} : selected entry → leads entry dependency →
      ChainBelow leads selected length dependency → ChainBelow leads selected (length + 1) entry

/-- The longest chain below the entry has this number of steps. -/
def LongestBelow (leads : Nat → Nat → Prop) (selected : Nat → Prop) (length entry : Nat) : Prop :=
  ChainBelow leads selected length entry ∧
    ∀ other, ChainBelow leads selected other entry → other ≤ length

/-- One more than the layers of the selected dependencies. -/
def Layered (leads : Nat → Nat → Prop) (selected : Nat → Prop) (layer : Nat → Nat)
    (entry : Nat) : Prop :=
  ∀ length, length < layer entry ↔
    ∃ dependency, leads entry dependency ∧ selected dependency ∧ length ≤ layer dependency

variable {layer : Nat → Nat} {leads : Nat → Nat → Prop}

theorem chainBelow_iff {selected : Nat → Prop}
    (layered : ∀ entry, selected entry → Layered leads selected layer entry) (length entry : Nat) :
    ChainBelow leads selected length entry ↔ selected entry ∧ length ≤ layer entry := by
  induction length generalizing entry with
  | zero =>
    constructor
    · rintro ⟨here⟩
      exact ⟨here, Nat.zero_le _⟩
    · rintro ⟨here, -⟩
      exact .single here
  | succ length ih =>
    constructor
    · intro chain
      cases chain with
      | step here edge rest =>
        obtain ⟨there, bound⟩ := (ih _).mp rest
        exact ⟨here, (layered entry here length).mpr ⟨_, edge, there, bound⟩⟩
    · rintro ⟨here, bound⟩
      obtain ⟨dependency, edge, there, below⟩ := (layered entry here length).mp bound
      exact .step here edge ((ih dependency).mpr ⟨there, below⟩)

theorem longestBelow_iff {selected : Nat → Prop}
    (layered : ∀ entry, selected entry → Layered leads selected layer entry) (length entry : Nat) :
    LongestBelow leads selected length entry ↔ selected entry ∧ layer entry = length := by
  rw [LongestBelow]
  simp only [chainBelow_iff layered]
  constructor
  · rintro ⟨⟨here, bound⟩, most⟩
    exact ⟨here, Nat.le_antisymm (most _ ⟨here, Nat.le_refl _⟩) bound⟩
  · rintro ⟨here, rfl⟩
    exact ⟨⟨here, Nat.le_refl _⟩, fun other chain => chain.2⟩

/-! ### The pass -/

theorem lt_max?_getD {values : List Nat} {length : Nat} :
    length < values.max?.getD 0 ↔ ∃ value ∈ values, length < value := by
  cases values with
  | nil => simp
  | cons first values =>
    cases largest : (first :: values).max? with
    | none => simp at largest
    | some most =>
      obtain ⟨mem, above⟩ := List.max?_eq_some_iff.mp largest
      constructor
      · exact fun bound => ⟨most, mem, bound⟩
      · rintro ⟨value, mem, bound⟩
        exact Nat.lt_of_lt_of_le bound (above value mem)

theorem mem_padded {layers : List (List Nat)} {missing layer entry : Nat} :
    entry ∈ (layers ++ List.replicate missing [])[layer]?.getD [] ↔
      entry ∈ layers[layer]?.getD [] := by
  by_cases bound : layer < layers.length
  · rw [List.getElem?_append_left bound]
  · have none : layers[layer]? = none := List.getElem?_eq_none (by omega)
    rw [List.getElem?_append_right (by omega), none, List.getElem?_replicate]
    split <;> simp

theorem flatten_modify_perm {layers : List (List Nat)} {layer entry : Nat}
    (bound : layer < layers.length) :
    (layers.modify layer (· ++ [entry])).flatten.Perm (layers.flatten ++ [entry]) := by
  induction layers generalizing layer with
  | nil => cases bound
  | cons first layers ih =>
    cases layer with
    | zero =>
      rw [List.modify_zero_cons, List.flatten_cons, List.flatten_cons, List.append_assoc,
        List.append_assoc]
      exact List.perm_append_comm.append_left first
    | succ layer =>
      rw [List.modify_succ_cons, List.flatten_cons, List.flatten_cons, List.append_assoc]
      exact (ih (Nat.lt_of_succ_lt_succ bound)).append_left first

theorem mem_modify_append {layers : List (List Nat)} {layer entry length other : Nat}
    (bound : layer < layers.length) :
    other ∈ (layers.modify layer (· ++ [entry]))[length]?.getD [] ↔
      other ∈ layers[length]?.getD [] ∨ other = entry ∧ length = layer := by
  rw [List.getElem?_modify]
  by_cases same : layer = length
  · subst same
    simp [List.getElem?_eq_getElem bound]
  · simp [same, Ne.symm same]

/-- The layers when a part of the order was looked at. -/
structure LayersAfter (size : Nat) (leads : Nat → Nat → Prop) (selected : List Bool)
    (done : List Nat) (layer : Nat → Nat) (assigned : PackageLockGraphIndex.AssignedLayers) :
    Prop where
  layerByEntry : assigned.layerByEntry = table size layer
  fresh : ∀ entry, entry ∉ done → layer entry = 0
  layered : ∀ entry ∈ done, PackageLockGraphIndex.isSelected selected entry = true →
    Layered leads (fun entry => PackageLockGraphIndex.isSelected selected entry = true) layer entry
  layers : ∀ length entry, entry ∈ assigned.layers[length]?.getD [] ↔
    entry ∈ done ∧ PackageLockGraphIndex.isSelected selected entry = true ∧ layer entry = length
  perm : assigned.layers.flatten.Perm (done.filter (PackageLockGraphIndex.isSelected selected))

variable {modules : List Name} {resolved : List (List PackageLockResolvedImport)} {nodes : List Nat}

open PackageLockGraphIndex (isSelected)

variable {assigned : PackageLockGraphIndex.AssignedLayers}

theorem layerOf_layered (prepared : Prepared modules resolved nodes) {selected : List Bool}
    {before after : List Nat} {entry : Nat} (split : nodes = before ++ entry :: after)
    (here : assigned.layerByEntry = table modules.length layer) (length : Nat) :
    length < (indexOf modules resolved nodes).layerOf selected assigned entry ↔
      ∃ dependency ∈ importedEntries resolved entry, isSelected selected dependency = true ∧
        length ≤ layer dependency := by
  have bound : entry < modules.length := (prepared.complete entry).mp (by simp [split])
  rw [PackageLockGraphIndex.layerOf, lt_max?_getD]
  simp only [indexOf, getElem?_table_of_lt bound, Option.getD_some, List.mem_map, List.mem_filter]
  constructor
  · rintro ⟨_, ⟨dependency, ⟨leads, there⟩, rfl⟩, below⟩
    have earlier := prepared.settled before entry after split dependency leads
    have inRange := (prepared.complete dependency).mp (by simp [split, earlier])
    rw [here, getElem?_table_of_lt inRange, Option.getD_some] at below
    exact ⟨dependency, leads, there, Nat.le_of_lt_succ below⟩
  · rintro ⟨dependency, leads, there, below⟩
    have earlier := prepared.settled before entry after split dependency leads
    have inRange := (prepared.complete dependency).mp (by simp [split, earlier])
    refine ⟨_, ⟨dependency, ⟨leads, there⟩, rfl⟩, ?_⟩
    rw [here, getElem?_table_of_lt inRange, Option.getD_some]
    exact Nat.lt_succ_of_le below

/-- A layer stays right when an entry that is not among its dependencies gets another one. -/
theorem Layered.congr {selected : Nat → Prop} {layer layer' : Nat → Nat}
    {entry : Nat} (layered : Layered leads selected layer entry) (here : layer' entry = layer entry)
    (below : ∀ dependency, leads entry dependency → layer' dependency = layer dependency) :
    Layered leads selected layer' entry := by
  intro length
  rw [here, layered length]
  constructor
  · rintro ⟨dependency, edge, there, bound⟩
    exact ⟨dependency, edge, there, (below dependency edge).symm ▸ bound⟩
  · rintro ⟨dependency, edge, there, bound⟩
    exact ⟨dependency, edge, there, below dependency edge ▸ bound⟩

theorem assignLayer_after (prepared : Prepared modules resolved nodes) {selected : List Bool}
    {before after : List Nat} {entry : Nat} (split : nodes = before ++ entry :: after)
    (done : LayersAfter modules.length (fun entry dependency =>
      dependency ∈ importedEntries resolved entry) selected before layer assigned) :
    ∃ layer', LayersAfter modules.length (fun entry dependency =>
      dependency ∈ importedEntries resolved entry) selected (before ++ [entry]) layer'
        ((indexOf modules resolved nodes).assignLayer selected assigned entry) := by
  have fresh : entry ∉ before := fun twice =>
    (List.nodup_append.mp (split ▸ prepared.nodup)).2.2 entry twice entry List.mem_cons_self rfl
  -- What an earlier entry depends on is earlier still.
  have closed : ∀ earlier ∈ before, ∀ dependency ∈ importedEntries resolved earlier,
      dependency ∈ before := by
    intro earlier mem dependency leads
    obtain ⟨first, last, rfl⟩ := List.append_of_mem mem
    have found := prepared.settled first earlier (last ++ entry :: after) (by simp [split])
      dependency leads
    exact List.mem_append_left _ found
  unfold PackageLockGraphIndex.assignLayer
  by_cases here : isSelected selected entry = true
  · rw [if_pos here]
    generalize chosen : (indexOf modules resolved nodes).layerOf selected assigned entry = top
    obtain ⟨layer', change, now, update⟩ : ∃ layer' : Nat → Nat,
        (layer' = fun other => if other = entry then top else layer other) ∧ layer' entry = top ∧
          ∀ other, other ≠ entry → layer' other = layer other :=
      ⟨_, rfl, if_pos rfl, fun other differ => if_neg differ⟩
    have room : top < (assigned.layers ++
        List.replicate (top + 1 - assigned.layers.length) []).length := by
      rw [List.length_append, List.length_replicate]
      omega
    refine ⟨layer', ?_⟩
    dsimp only
    constructor
    case layerByEntry => rw [done.layerByEntry, set_table, change]
    case fresh =>
      intro other unplaced
      rw [List.mem_append, List.mem_singleton, not_or] at unplaced
      rw [update other unplaced.2, done.fresh other unplaced.1]
    case layered =>
      intro other placed there
      rcases List.mem_append.mp placed with old | new
      · refine (done.layered other old there).congr (update other fun same => fresh (same ▸ old))
          fun dependency leads => update dependency fun same => ?_
        exact fresh (same ▸ closed other old dependency leads)
      · intro length
        rw [List.mem_singleton.mp new, now, ← chosen,
          layerOf_layered prepared split done.layerByEntry]
        refine exists_congr fun dependency => and_congr_right fun leads => ?_
        have earlier := prepared.settled before entry after split dependency leads
        rw [update dependency fun same => fresh (same ▸ earlier)]
    case layers =>
      intro length other
      rw [mem_modify_append room, mem_padded, done.layers, List.mem_append, List.mem_singleton]
      constructor
      · rintro (⟨old, there, rfl⟩ | ⟨rfl, rfl⟩)
        · exact ⟨.inl old, there, update other fun same => fresh (same ▸ old)⟩
        · exact ⟨.inr rfl, here, now⟩
      · rintro ⟨old | rfl, there, same⟩
        · rw [update other fun same => fresh (same ▸ old)] at same
          exact .inl ⟨old, there, same⟩
        · exact .inr ⟨rfl, same.symm.trans now⟩
    case perm =>
      rw [List.filter_append, List.filter_cons_of_pos here, List.filter_nil]
      refine (flatten_modify_perm room).trans ?_
      rw [List.flatten_append, List.flatten_replicate_nil, List.append_nil]
      exact done.perm.append_right _
  · rw [if_neg here]
    refine ⟨layer, done.layerByEntry, ?_, ?_, ?_, ?_⟩
    · exact fun other unplaced => done.fresh other fun old => unplaced (List.mem_append_left _ old)
    · intro other placed there
      rcases List.mem_append.mp placed with old | new
      · exact done.layered other old there
      · exact absurd (List.mem_singleton.mp new ▸ there) here
    · intro length other
      rw [done.layers]
      constructor
      · exact fun found => ⟨List.mem_append_left _ found.1, found.2⟩
      · rintro ⟨placed, there, same⟩
        rcases List.mem_append.mp placed with old | new
        · exact ⟨old, there, same⟩
        · exact absurd (List.mem_singleton.mp new ▸ there) here
    · rw [List.filter_append, List.filter_cons_of_neg here, List.filter_nil, List.append_nil]
      exact done.perm

theorem assignLayers_after (prepared : Prepared modules resolved nodes) {selected : List Bool}
    (rest before : List Nat) (split : nodes = before ++ rest)
    (done : LayersAfter modules.length (fun entry dependency =>
      dependency ∈ importedEntries resolved entry) selected before layer assigned) :
    ∃ layer', LayersAfter modules.length (fun entry dependency =>
      dependency ∈ importedEntries resolved entry) selected nodes layer'
        (rest.foldl ((indexOf modules resolved nodes).assignLayer selected) assigned) := by
  induction rest generalizing before layer assigned with
  | nil =>
    rw [List.append_nil] at split
    exact ⟨layer, split ▸ done⟩
  | cons entry rest ih =>
    obtain ⟨next, after⟩ := assignLayer_after prepared split done
    exact ih (before ++ [entry]) (by simpa using split) after

/-- The layers partition the selected entries by the lengths of their longest chains. -/
theorem topologicalLayers_exact (prepared : Prepared modules resolved nodes)
    (selected : List Bool) :
    ((indexOf modules resolved nodes).topologicalLayers selected).flatten.Perm
        (nodes.filter (isSelected selected)) ∧
      ∀ length entry,
        entry ∈ ((indexOf modules resolved nodes).topologicalLayers selected)[length]?.getD [] ↔
          entry < modules.length ∧
            LongestBelow (fun entry dependency => dependency ∈ importedEntries resolved entry)
              (fun entry => isSelected selected entry = true) length entry := by
  have start : LayersAfter modules.length (fun entry dependency =>
      dependency ∈ importedEntries resolved entry) selected [] (fun _ => 0)
        { layerByEntry := List.replicate modules.length 0, layers := [] } :=
    ⟨replicate_eq_table 0, fun _ _ => rfl, nofun, by simp, by simp⟩
  obtain ⟨layer, done⟩ := assignLayers_after prepared nodes [] rfl start
  refine ⟨done.perm, fun length entry => ?_⟩
  have layered : ∀ entry, isSelected selected entry = true →
      Layered (fun entry dependency => dependency ∈ importedEntries resolved entry)
        (fun entry => isSelected selected entry = true) layer entry := by
    intro entry here
    by_cases placed : entry ∈ nodes
    · exact done.layered entry placed here
    · -- An entry outside of the lock imports nothing.
      intro length
      have outside : resolved[entry]? = none := List.getElem?_eq_none (by
        rw [prepared.length]
        exact Nat.le_of_not_lt fun bound => placed ((prepared.complete entry).mpr bound))
      simp [done.fresh entry placed, importedEntries, outside]
  rw [longestBelow_iff layered, ← prepared.complete]
  exact done.layers length entry

end NpaCore.Package
