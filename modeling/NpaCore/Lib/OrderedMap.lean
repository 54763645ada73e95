import NpaCore.Lib.Sorted

/-!
# Ordered sets and maps

Sets and maps ordered by a comparison, as lists of their entries in order. What a comparison
calls equal is one key; where that is equality, an insertion adds the key and nothing else.
-/

namespace NpaCore.OrderedMap

variable {α β : Type} {cmp : α → α → Ordering}

/-- Insert into a set. An equal key that is there stays. -/
def insertKey (cmp : α → α → Ordering) (a : α) : List α → List α
  | [] => [a]
  | b :: rest =>
    match cmp a b with
    | .lt => a :: b :: rest
    | .eq => b :: rest
    | .gt => b :: insertKey cmp a rest

/-- Insert into a map, or merge with the value that is there. -/
def insertWith (cmp : α → α → Ordering) (merge : β → β → β) (a : α) (value : β) :
    List (α × β) → List (α × β)
  | [] => [(a, value)]
  | (b, old) :: rest =>
    match cmp a b with
    | .lt => (a, value) :: (b, old) :: rest
    | .eq => (b, merge old value) :: rest
    | .gt => (b, old) :: insertWith cmp merge a value rest

/-- The set of the items of a list. -/
def ofList (cmp : α → α → Ordering) (items : List α) : List α :=
  items.foldl (fun set item => insertKey cmp item set) []

variable {map : List (α × β)} {value : β}

section Lawful

variable (lawful : ∀ a b, cmp a b = .eq → a = b)
include lawful

theorem mem_insertKey {a x : α} {set : List α} : x ∈ insertKey cmp a set ↔ x = a ∨ x ∈ set := by
  induction set with
  | nil => simp [insertKey]
  | cons b rest ih =>
    rw [insertKey]
    split
    · simp
    next same =>
      obtain rfl := lawful a b same
      simp
    · rw [List.mem_cons, ih, List.mem_cons]
      exact or_left_comm

theorem mem_foldl_insertKey {x : α} {items set : List α} :
    x ∈ items.foldl (fun set item => insertKey cmp item set) set ↔ x ∈ items ∨ x ∈ set := by
  induction items generalizing set with
  | nil => simp
  | cons item rest ih =>
    rw [List.foldl_cons, ih, mem_insertKey lawful, List.mem_cons, or_assoc, or_left_comm]

theorem mem_ofList {x : α} {items : List α} : x ∈ ofList cmp items ↔ x ∈ items := by
  rw [ofList, mem_foldl_insertKey lawful]
  simp

theorem mem_keys_insertWith {merge : β → β → β} {a x : α} :
    x ∈ (insertWith cmp merge a value map).map Prod.fst ↔ x = a ∨ x ∈ map.map Prod.fst := by
  induction map with
  | nil => simp [insertWith]
  | cons entry rest ih =>
    obtain ⟨b, old⟩ := entry
    rw [insertWith]
    split
    · simp
    next same =>
      obtain rfl := lawful a b same
      simp
    · rw [List.map_cons, List.mem_cons, ih, List.map_cons, List.mem_cons]
      exact or_left_comm

end Lawful


/-! ### Sets in order -/

section Ordered

variable [Std.TransCmp cmp] (lawful : ∀ a b, cmp a b = .eq → a = b)
include lawful

theorem insertKey_pairwise {a : α} {set : List α} (sorted : set.Pairwise fun a b => cmp a b = .lt) :
    (insertKey cmp a set).Pairwise fun a b => cmp a b = .lt := by
  induction set with
  | nil => simp [insertKey]
  | cons b rest ih =>
    have below := (List.pairwise_cons.mp sorted).1
    have later := (List.pairwise_cons.mp sorted).2
    rw [insertKey]
    split
    next less =>
      refine List.pairwise_cons.mpr ⟨fun x mem => ?_, sorted⟩
      rcases List.mem_cons.mp mem with rfl | mem
      · exact less
      · exact Std.TransCmp.lt_trans less (below x mem)
    next => exact sorted
    next more =>
      refine List.pairwise_cons.mpr ⟨fun x mem => ?_, ih later⟩
      rcases (mem_insertKey lawful).mp mem with rfl | mem
      · exact Std.OrientedCmp.lt_of_gt more
      · exact below x mem

theorem foldl_insertKey_pairwise {items set : List α}
    (sorted : set.Pairwise fun a b => cmp a b = .lt) :
    (items.foldl (fun set item => insertKey cmp item set) set).Pairwise
      fun a b => cmp a b = .lt := by
  induction items generalizing set with
  | nil => exact sorted
  | cons item rest ih => exact ih (insertKey_pairwise lawful sorted)

theorem ofList_pairwise (items : List α) : (ofList cmp items).Pairwise fun a b => cmp a b = .lt :=
  foldl_insertKey_pairwise lawful .nil

end Ordered

/-! ### Maps in order -/

def get? (cmp : α → α → Ordering) (a : α) : List (α × β) → Option β
  | [] => none
  | (b, value) :: rest => if cmp a b = .eq then some value else get? cmp a rest

def erase (cmp : α → α → Ordering) (a : α) (map : List (α × β)) : List (α × β) :=
  map.filter fun entry => cmp a entry.1 ≠ .eq

/-- Change what is there under a key, when something is. -/
def adjust (cmp : α → α → Ordering) (a : α) (change : β → β) (map : List (α × β)) :
    List (α × β) :=
  map.map fun entry => if cmp a entry.1 = .eq then (entry.1, change entry.2) else entry

/-- Change what is there under a key, or what stands for it when nothing is. -/
def updateEntry (cmp : α → α → Ordering) (default : β) (change : β → β) (a : α)
    (map : List (α × β)) : List (α × β) :=
  insertWith cmp (fun old _ => change old) a (change default) map

/-- The entries that a list of keys takes out of a map, one key after the other. -/
def takeEach (cmp : α → α → Ordering) : List α → List (α × β) → List (α × β)
  | [], _ => []
  | a :: rest, map =>
    match get? cmp a map with
    | none => takeEach cmp rest map
    | some value => (a, value) :: takeEach cmp rest (erase cmp a map)

theorem keys_insertWith {merge : β → β → β} {a : α} :
    (insertWith cmp merge a value map).map Prod.fst = insertKey cmp a (map.map Prod.fst) := by
  induction map with
  | nil => rfl
  | cons entry rest ih =>
    obtain ⟨b, old⟩ := entry
    rw [insertWith, List.map_cons, insertKey]
    split <;> simp_all

theorem get?_erase_of_ne (lawful : ∀ a b, cmp a b = .eq → a = b) {a b : α} (other : a ≠ b)
    (map : List (α × β)) : get? cmp a (erase cmp b map) = get? cmp a map := by
  induction map with
  | nil => rfl
  | cons entry rest ih =>
    obtain ⟨c, value⟩ := entry
    rw [erase] at ih ⊢
    rw [List.filter_cons]
    split
    next => rw [get?, get?, ih]
    next removed =>
      have there : cmp b c = .eq := by simpa using removed
      have differs : cmp a c ≠ .eq := fun here =>
        other ((lawful _ _ here).trans (lawful _ _ there).symm)
      rw [ih, get?, if_neg differs]

/-- Of keys without repetition, each takes what the map holds under it. -/
theorem takeEach_eq (lawful : ∀ a b, cmp a b = .eq → a = b) {keys : List α} (nodup : keys.Nodup)
    (map : List (α × β)) :
    takeEach cmp keys map =
      keys.filterMap fun a => (get? cmp a map).map fun value => (a, value) := by
  induction keys generalizing map with
  | nil => rfl
  | cons a rest ih =>
    rw [List.nodup_cons] at nodup
    rw [takeEach, List.filterMap_cons]
    split
    next missing => rw [missing, ih nodup.2]; rfl
    next value here =>
      rw [here, ih nodup.2]
      refine congrArg _ (List.filterMap_congr fun b mem => ?_)
      rw [get?_erase_of_ne lawful (ne_of_mem_of_not_mem mem nodup.1)]

variable {change : β → β}

section Ordered

variable [Std.TransCmp cmp] (lawful : ∀ a b, cmp a b = .eq → a = b)
include lawful

theorem get?_eq_some {a : α} (sorted : (map.map Prod.fst).Pairwise fun a b => cmp a b = .lt) :
    get? cmp a map = some value ↔ (a, value) ∈ map := by
  induction map with
  | nil => simp [get?]
  | cons entry rest ih =>
    obtain ⟨b, old⟩ := entry
    rw [List.map_cons, List.pairwise_cons] at sorted
    rw [get?, List.mem_cons, Prod.mk.injEq]
    split
    next same =>
      obtain rfl := lawful a b same
      have fresh : (a, value) ∉ rest := fun mem => by
        have less := sorted.1 a (List.mem_map_of_mem (f := Prod.fst) mem)
        rw [same] at less
        cases less
      simp [fresh, eq_comm]
    next differs =>
      have other : a ≠ b := fun equal => differs (equal ▸ Std.ReflCmp.compare_self)
      rw [ih sorted.2, or_iff_right fun first => other first.1]

theorem get?_eq_none {a : α} :
    get? cmp a map = none ↔ a ∉ map.map Prod.fst := by
  induction map with
  | nil => simp [get?]
  | cons entry rest ih =>
    obtain ⟨b, value⟩ := entry
    rw [get?, List.map_cons, List.mem_cons]
    split
    next same => simp [lawful a b same]
    next differs =>
      have other : a ≠ b := fun equal => differs (equal ▸ Std.ReflCmp.compare_self)
      rw [ih, not_or, and_iff_right other]

theorem mem_updateEntry {default : β} {a x : α}
    (sorted : (map.map Prod.fst).Pairwise fun a b => cmp a b = .lt) :
    (x, value) ∈ updateEntry cmp default change a map ↔
      x ≠ a ∧ (x, value) ∈ map ∨ x = a ∧ value = change ((get? cmp a map).getD default) := by
  rw [updateEntry]
  induction map with
  | nil => simp [insertWith, get?]
  | cons entry rest ih =>
    obtain ⟨b, old⟩ := entry
    have below := (List.pairwise_cons.mp sorted).1
    have later := ih (List.pairwise_cons.mp sorted).2
    have away : ∀ {c d : α}, cmp c d = .lt → c ≠ d := by
      rintro c _ less rfl
      have self : cmp c c = .eq := Std.ReflCmp.compare_self
      rw [self] at less
      cases less
    rw [insertWith]
    split
    next less =>
      -- the new key is smaller than all others, so it was not there
      have fresh : ∀ value, (a, value) ∉ (b, old) :: rest := fun value mem => by
        rcases List.mem_cons.mp mem with same | mem
        · exact away less (congrArg Prod.fst same)
        · exact away (Std.TransCmp.lt_trans less (below a (List.mem_map_of_mem (f := Prod.fst) mem)))
            rfl
      have missing : get? cmp a ((b, old) :: rest) = none :=
        Option.eq_none_iff_forall_ne_some.mpr fun value here =>
          fresh value ((get?_eq_some lawful sorted).mp here)
      rw [List.mem_cons, missing, Option.getD_none, Prod.mk.injEq]
      constructor
      · rintro (first | mem)
        · exact .inr first
        · exact .inl ⟨fun same => fresh value (same ▸ mem), mem⟩
      · rintro (⟨-, mem⟩ | first)
        · exact .inr mem
        · exact .inl first
    next same =>
      obtain rfl := lawful a b same
      have here : get? cmp a ((a, old) :: rest) = some old :=
        (get?_eq_some lawful sorted).mpr List.mem_cons_self
      rw [List.mem_cons, here, Option.getD_some, Prod.mk.injEq, List.mem_cons, Prod.mk.injEq]
      constructor
      · rintro (first | mem)
        · exact .inr first
        · exact .inl ⟨(away (below x (List.mem_map_of_mem (f := Prod.fst) mem))).symm, .inr mem⟩
      · rintro (⟨other, ⟨first, -⟩ | mem⟩ | first)
        · exact absurd first other
        · exact .inr mem
        · exact .inl first
    next more =>
      have differs : a ≠ b := by
        rintro rfl
        have self : cmp a a = .eq := Std.ReflCmp.compare_self
        rw [self] at more
        cases more
      have behind : get? cmp a ((b, old) :: rest) = get? cmp a rest := by
        rw [get?, if_neg (by rw [more]; exact nofun)]
      rw [List.mem_cons, or_congr_right later, behind, List.mem_cons, Prod.mk.injEq]
      constructor
      · rintro (⟨rfl, rfl⟩ | ⟨other, mem⟩ | last)
        · exact .inl ⟨differs.symm, .inl ⟨rfl, rfl⟩⟩
        · exact .inl ⟨other, .inr mem⟩
        · exact .inr last
      · rintro (⟨other, first | mem⟩ | last)
        · exact .inl first
        · exact .inr (.inl ⟨other, mem⟩)
        · exact .inr (.inr last)

end Ordered

/-! ### Maps of sets -/

section Sets

variable {cmp' : β → β → Ordering}

/-- Insert values into the set that a map holds under a key. -/
def extendAt (cmp : α → α → Ordering) (cmp' : β → β → Ordering) (a : α) (values : List β)
    (map : List (α × List β)) : List (α × List β) :=
  updateEntry cmp [] (fun old => values.foldl (fun set value => insertKey cmp' value set) old) a map

/-- The keys of a map, in order, and the members of its sets, in order. -/
structure Holds (cmp : α → α → Ordering) (cmp' : β → β → Ordering) (keys : α → Prop)
    (members : α → β → Prop) (map : List (α × List β)) : Prop where
  sorted : (map.map Prod.fst).Pairwise fun a b => cmp a b = .lt
  mem_keys : ∀ a, a ∈ map.map Prod.fst ↔ keys a
  sets : ∀ a set, (a, set) ∈ map →
    set.Pairwise (fun a b => cmp' a b = .lt) ∧ ∀ value, value ∈ set ↔ members a value
  known : ∀ a value, members a value → keys a

theorem Holds.empty : Holds cmp cmp' (fun _ => False) (fun _ _ => False) [] := by
  constructor
  · exact .nil
  · simp
  · exact nofun
  · exact fun _ _ none => none

variable {map : List (α × List β)}

theorem Holds.congr {keys keys' : α → Prop} {members members' : α → β → Prop}
    (holds : Holds cmp cmp' keys members map)
    (sameKeys : ∀ a, keys a ↔ keys' a) (sameMembers : ∀ a value, members a value ↔ members' a value) :
    Holds cmp cmp' keys' members' map := by
  obtain rfl : keys = keys' := funext fun a => propext (sameKeys a)
  obtain rfl : members = members' := funext fun a => funext fun value =>
    propext (sameMembers a value)
  exact holds

variable [Std.TransCmp cmp] [Std.TransCmp cmp'] (lawful : ∀ a b, cmp a b = .eq → a = b)
  (lawful' : ∀ a b, cmp' a b = .eq → a = b)
include lawful lawful'

variable {members : α → β → Prop}

theorem Holds.extendAt {keys : α → Prop}
    (holds : Holds cmp cmp' keys members map) (a : α) (values : List β) :
    Holds cmp cmp' (fun x => x = a ∨ keys x)
      (fun x value => x = a ∧ value ∈ values ∨ members x value)
      (extendAt cmp cmp' a values map) := by
  have mem : ∀ {x : α} {set : List β}, (x, set) ∈ OrderedMap.extendAt cmp cmp' a values map ↔
      x ≠ a ∧ (x, set) ∈ map ∨
        x = a ∧ set = values.foldl (fun set value => insertKey cmp' value set)
          ((get? cmp a map).getD []) :=
    mem_updateEntry lawful holds.sorted
  constructor
  case sorted =>
    rw [OrderedMap.extendAt, updateEntry, keys_insertWith]
    exact insertKey_pairwise lawful holds.sorted
  case mem_keys =>
    intro x
    rw [OrderedMap.extendAt, updateEntry, keys_insertWith, mem_insertKey lawful, holds.mem_keys]
  case sets =>
    intro x set here
    rcases mem.mp here with ⟨other, old⟩ | ⟨rfl, rfl⟩
    · have before := holds.sets x set old
      refine ⟨before.1, fun value => ?_⟩
      rw [before.2, or_iff_right fun first => other first.1]
    · have before : ((get? cmp x map).getD []).Pairwise (fun a b => cmp' a b = .lt) ∧
          ∀ value, value ∈ (get? cmp x map).getD [] ↔ members x value := by
        cases found : get? cmp x map with
        | none =>
          refine ⟨.nil, fun value => iff_of_false List.not_mem_nil fun member => ?_⟩
          exact (get?_eq_none lawful).mp found ((holds.mem_keys x).mpr (holds.known x value member))
        | some old => exact holds.sets x old ((get?_eq_some lawful holds.sorted).mp found)
      refine ⟨foldl_insertKey_pairwise lawful' before.1, fun value => ?_⟩
      rw [mem_foldl_insertKey lawful', before.2, and_iff_right rfl]
  case known =>
    rintro x value (⟨rfl, -⟩ | member)
    · exact .inl rfl
    · exact .inr (holds.known x value member)

theorem Holds.foldl_extendAt {γ : Type} (key : γ → α) (values : γ → List β) (items : List γ)
    {keys : α → Prop} (holds : Holds cmp cmp' keys members map) :
    Holds cmp cmp' (fun x => (∃ item ∈ items, key item = x) ∨ keys x)
      (fun x value => (∃ item ∈ items, key item = x ∧ value ∈ values item) ∨ members x value)
      (items.foldl (fun map item => OrderedMap.extendAt cmp cmp' (key item) (values item) map)
        map) := by
  induction items generalizing keys members map with
  | nil => exact holds.congr (by simp) (by simp)
  | cons item rest ih =>
    refine (ih (holds.extendAt lawful lawful' (key item) (values item))).congr ?_ ?_
    · intro x
      rw [List.exists_mem_cons_iff, eq_comm (a := x), ← or_assoc, or_comm (b := key item = x)]
    · intro x value
      rw [List.exists_mem_cons_iff, eq_comm (a := x), ← or_assoc,
        or_comm (b := key item = x ∧ value ∈ values item)]

/-- The members of the sets of a map, none of which is empty. -/
def HoldsSets (cmp : α → α → Ordering) (cmp' : β → β → Ordering) (members : α → β → Prop)
    (map : List (α × List β)) : Prop :=
  Holds cmp cmp' (fun a => ∃ value, members a value) members map

omit lawful lawful' [Std.TransCmp cmp] [Std.TransCmp cmp'] in
theorem HoldsSets.empty : HoldsSets cmp cmp' (fun _ _ => False) [] :=
  Holds.empty.congr (fun _ => by simp) fun _ _ => Iff.rfl

omit lawful lawful' [Std.TransCmp cmp] [Std.TransCmp cmp'] in
theorem HoldsSets.congr {members members' : α → β → Prop} (holds : HoldsSets cmp cmp' members map)
    (same : ∀ a value, members a value ↔ members' a value) : HoldsSets cmp cmp' members' map :=
  Holds.congr holds (fun a => exists_congr (same a)) same

theorem HoldsSets.foldl_extendAt
    (holds : HoldsSets cmp cmp' members map) (items : List α) (value : β) :
    HoldsSets cmp cmp' (fun x other => x ∈ items ∧ other = value ∨ members x other)
      (items.foldl (fun map a => OrderedMap.extendAt cmp cmp' a [value] map) map) := by
  refine (Holds.foldl_extendAt lawful lawful' id (fun _ => [value]) items holds).congr ?_ ?_
  · intro x
    rw [exists_or]
    simp
  · intro x other
    simp

theorem HoldsSets.extendAt (holds : HoldsSets cmp cmp' members map) (a : α) (value : β) :
    HoldsSets cmp cmp' (fun x other => x = a ∧ other = value ∨ members x other)
      (OrderedMap.extendAt cmp cmp' a [value] map) := by
  refine HoldsSets.congr (HoldsSets.foldl_extendAt lawful lawful' holds [a] value) ?_
  intro x other
  rw [List.mem_singleton]

omit lawful lawful' [Std.TransCmp cmp] [Std.TransCmp cmp'] in
theorem takeEach_sublist (cmp : α → α → Ordering) (keys : List α) (map : List (α × β)) :
    ((takeEach cmp keys map).map Prod.fst).Sublist keys := by
  induction keys generalizing map with
  | nil => exact .slnil
  | cons a rest ih =>
    rw [takeEach]
    split
    next => exact (ih map).cons a
    next value here => exact (ih _).cons_cons a

omit lawful' [Std.TransCmp cmp'] in
/-- What is taken out of a map of sets. -/
theorem HoldsSets.takeEach
    (holds : HoldsSets cmp cmp' members map) {keys : List α} (nodup : keys.Nodup) :
    (∀ a, a ∈ (takeEach cmp keys map).map Prod.fst ↔ a ∈ keys ∧ ∃ value, members a value) ∧
      ∀ entry ∈ takeEach cmp keys map, entry.2.Pairwise (fun a b => cmp' a b = .lt) ∧
        ∀ value, value ∈ entry.2 ↔ members entry.1 value := by
  have mem : ∀ entry, entry ∈ OrderedMap.takeEach cmp keys map ↔ entry.1 ∈ keys ∧ entry ∈ map := by
    intro entry
    rw [takeEach_eq lawful nodup, List.mem_filterMap]
    constructor
    · rintro ⟨a, key, found⟩
      obtain ⟨set, here, rfl⟩ := Option.map_eq_some_iff.mp found
      exact ⟨key, (get?_eq_some lawful holds.sorted).mp here⟩
    · rintro ⟨key, here⟩
      refine ⟨entry.1, key, ?_⟩
      rw [(get?_eq_some lawful holds.sorted).mpr here, Option.map_some]
  refine ⟨fun a => ?_, fun entry taken => holds.sets entry.1 entry.2 ((mem entry).mp taken).2⟩
  rw [List.mem_map]
  constructor
  · rintro ⟨entry, taken, rfl⟩
    obtain ⟨key, here⟩ := (mem entry).mp taken
    exact ⟨key, (holds.mem_keys entry.1).mp (List.mem_map_of_mem (f := Prod.fst) here)⟩
  · rintro ⟨key, member⟩
    obtain ⟨entry, here, rfl⟩ := List.mem_map.mp ((holds.mem_keys a).mpr member)
    exact ⟨entry, (mem entry).mpr ⟨key, here⟩, rfl⟩

omit lawful lawful' in
/-- A map of sets is determined by its keys and members. -/
theorem Holds.unique {keys : α → Prop} {map other : List (α × List β)}
    (holds : Holds cmp cmp' keys members map) (holds' : Holds cmp cmp' keys members other) :
    map = other := by
  have swapped : ∀ {a b : α × List β}, cmp a.1 b.1 = .lt → cmp b.1 a.1 ≠ .lt := by
    intro a b less more
    rw [Std.OrientedCmp.gt_of_lt less] at more
    cases more
  have irrefl : Std.Irrefl fun a b : α × List β => cmp a.1 b.1 = .lt :=
    ⟨fun _ less => swapped less less⟩
  have antisymm : Std.Antisymm fun a b : α × List β => cmp a.1 b.1 = .lt :=
    ⟨fun _ _ less more => absurd more (swapped less)⟩
  have within : ∀ {map other : List (α × List β)}, Holds cmp cmp' keys members map →
      Holds cmp cmp' keys members other → ∀ entry ∈ map, entry ∈ other := by
    intro map other holds holds' entry mem
    have key := (holds.mem_keys entry.1).mp (List.mem_map_of_mem (f := Prod.fst) mem)
    obtain ⟨found, mem', same⟩ := List.mem_map.mp ((holds'.mem_keys entry.1).mpr key)
    have first := holds.sets entry.1 entry.2 mem
    have second := holds'.sets found.1 found.2 mem'
    rw [same] at second
    have sets : found.2 = entry.2 := Sorted.eq_of_mem_iff second.1 first.1
      fun value => (second.2 value).trans (first.2 value).symm
    exact Prod.ext same sets ▸ mem'
  exact (List.pairwise_map.mp holds.sorted).eq_of_mem_iff (List.pairwise_map.mp holds'.sorted)
    fun entry => ⟨within holds holds' entry, within holds' holds entry⟩

end Sets

/-! ### A map that grows at its end -/

section Growing

theorem keys_adjust {a : α} :
    (adjust cmp a change map).map Prod.fst = map.map Prod.fst := by
  rw [adjust, List.map_map]
  apply List.map_congr_left
  intro entry _
  dsimp only [Function.comp]
  split <;> rfl

theorem insertWith_of_greatest {merge : β → β → β} {a : α}
    (greatest : ∀ b ∈ map.map Prod.fst, cmp a b = .gt) :
    insertWith cmp merge a value map = map ++ [(a, value)] := by
  induction map with
  | nil => rfl
  | cons entry rest ih =>
    rw [List.map_cons, List.forall_mem_cons] at greatest
    simp [insertWith, greatest.1, ih greatest.2]

theorem get?_concat {a b : α} :
    get? cmp a (map ++ [(b, value)]) =
      (get? cmp a map).or (if cmp a b = .eq then some value else none) := by
  induction map with
  | nil => simp [get?]
  | cons entry rest ih =>
    rw [List.cons_append, get?, get?]
    split
    · rfl
    · exact ih

theorem get?_adjust_self {a : α} :
    get? cmp a (adjust cmp a change map) = (get? cmp a map).map change := by
  induction map with
  | nil => rfl
  | cons entry rest ih =>
    rw [adjust] at ih ⊢
    rw [List.map_cons]
    split
    next same => simp [get?, same]
    next differs => simp [get?, differs, ih]

theorem get?_adjust_of_ne (lawful : ∀ a b, cmp a b = .eq → a = b) {a b : α} (other : b ≠ a) :
    get? cmp b (adjust cmp a change map) = get? cmp b map := by
  induction map with
  | nil => rfl
  | cons entry rest ih =>
    rw [adjust] at ih ⊢
    rw [List.map_cons, get?]
    split
    next same =>
      -- the changed entry stands under the other key
      have differs : cmp b entry.1 ≠ .eq := fun here =>
        other ((lawful _ _ here).trans (lawful _ _ same).symm)
      rw [get?, if_neg differs, if_neg differs, ih]
    next => rw [get?, ih]

/-- Changes under different keys can be made in either order. -/
theorem adjust_comm (lawful : ∀ a b, cmp a b = .eq → a = b) {a b : α} (other : a ≠ b)
    {change change' : β → β} :
    adjust cmp a change (adjust cmp b change' map) =
      adjust cmp b change' (adjust cmp a change map) := by
  rw [adjust, adjust, adjust, adjust, List.map_map, List.map_map]
  apply List.map_congr_left
  intro entry _
  dsimp only [Function.comp]
  by_cases here : cmp a entry.1 = .eq
  · have there : cmp b entry.1 ≠ .eq := fun same =>
      other ((lawful _ _ here).trans (lawful _ _ same).symm)
    simp only [here, there, if_true, if_false]
  · by_cases there : cmp b entry.1 = .eq
    · simp only [here, there, if_true, if_false]
    · simp only [here, there, if_false]

end Growing

end NpaCore.OrderedMap
