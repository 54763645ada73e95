import Mathlib.Data.List.Nodup
import Mathlib.Data.Option.Defs
import Mathlib.Tactic.Common

/-!
# Loading groups into a flat map

Groups of entries are loaded one after another into one map from keys to values.
A group has a primary key. If the primary key is taken the group may be skipped,
otherwise all its keys must be free and its entries are added. A group can also
claim a key for nothing, which keeps others from finding a value there.

## Main result

`Loads.faithful`: when the groups agree on the keys they share, and a group is
determined by its primary entry, the map holds the entries of every group, the
skipped ones included.
-/

namespace NpaCore.FlatLoad

variable {κ ν : Type}

structure Group (κ ν : Type) where
  primary : κ
  claims : List (κ × Option ν)

def Group.keys (g : Group κ ν) : List κ := g.claims.map Prod.fst

/-- One load: the group is skipped because its primary key is taken, or added. -/
inductive LoadStep (env : κ → Option ν) (g : Group κ ν) : (κ → Option ν) → Prop
  | skip (taken : (env g.primary).isSome) : LoadStep env g env
  | add {next : κ → Option ν} (free : ∀ key ∈ g.keys, env key = none)
      (entries : ∀ claim ∈ g.claims, next claim.1 = claim.2)
      (others : ∀ key, key ∉ g.keys → next key = env key) : LoadStep env g next

/-- The map after loading the groups in order, from the empty map. -/
inductive Loads : List (Group κ ν) → (κ → Option ν) → Prop
  | nil : Loads [] fun _ => none
  | snoc {groups env g next} (before : Loads groups env) (step : LoadStep env g next) :
      Loads (groups ++ [g]) next

/-- The entries for something are found in the map. -/
def Holds (env : κ → Option ν) (g : Group κ ν) : Prop :=
  ∀ key value, (key, some value) ∈ g.claims → env key = some value

theorem LoadStep.keeps {env next : κ → Option ν} {g : Group κ ν} (step : LoadStep env g next)
    {key : κ} {value : ν} (h : env key = some value) : next key = some value := by
  cases step with
  | skip => exact h
  | add free entries others =>
    have absent : key ∉ g.keys := by
      intro mem
      rw [free key mem] at h
      cases h
    rw [others key absent, h]

/-- Every entry of the map comes from a group all of whose entries are in the map. -/
theorem Loads.origin {groups : List (Group κ ν)} {env : κ → Option ν} (loads : Loads groups env)
    {key : κ} {value : ν} (h : env key = some value) :
    ∃ g ∈ groups, (key, some value) ∈ g.claims ∧ Holds env g := by
  induction loads generalizing key value with
  | nil => cases h
  | @snoc groups env g next before step ih =>
    have old : ∀ {key : κ} {value : ν}, env key = some value →
        ∃ g' ∈ groups ++ [g], (key, some value) ∈ g'.claims ∧ Holds next g' := by
      intro key value found
      obtain ⟨g', mem, claim, holds⟩ := ih found
      exact ⟨g', List.mem_append_left _ mem, claim, fun k v c => step.keeps (holds k v c)⟩
    cases step with
    | skip => exact old h
    | add free entries others =>
      by_cases mine : key ∈ g.keys
      · obtain ⟨⟨k, claim⟩, mem, rfl⟩ := List.mem_map.mp mine
        have value_eq : claim = some value := (entries _ mem).symm.trans h
        subst value_eq
        exact ⟨g, by simp, mem, fun k v c => entries _ c⟩
      · rw [others key mine] at h
        exact old h

section Agree

variable (R : ν → ν → Prop)

/-- The two groups claim the same, up to `R`, for every key they share. -/
def Agree (g h : Group κ ν) : Prop :=
  ∀ key v w, (key, v) ∈ g.claims → (key, w) ∈ h.claims → Option.Rel R v w

/-- If the other group has an entry like the primary one of `g`, it has one like each. -/
def Determines (g h : Group κ ν) : Prop :=
  ∀ v w, (g.primary, some v) ∈ g.claims → (g.primary, some w) ∈ h.claims → R v w →
    ∀ key v', (key, some v') ∈ g.claims → ∃ w', (key, some w') ∈ h.claims ∧ R v' w'

/-- The map holds what the group claims, up to `R`. -/
def HoldsUpTo (env : κ → Option ν) (g : Group κ ν) : Prop :=
  ∀ claim ∈ g.claims, Option.Rel R claim.2 (env claim.1)

end Agree

variable {R : ν → ν → Prop} {groups : List (Group κ ν)} {env : κ → Option ν}

/-- Every entry of every group is found up to `R`, the claims for nothing aside. -/
theorem Loads.found (loads : Loads groups env) (refl : ∀ v, R v v)
    (primary : ∀ g ∈ groups, g.primary ∈ g.keys)
    (agree : ∀ g ∈ groups, ∀ h ∈ groups, Agree R g h)
    (determines : ∀ g ∈ groups, ∀ h ∈ groups, Determines R g h) :
    ∀ g ∈ groups, ∀ key v, (key, some v) ∈ g.claims → ∃ w, env key = some w ∧ R v w := by
  induction loads with
  | nil =>
    intro g mem
    cases mem
  | @snoc groups env g next before step ih =>
    have earlier := ih (fun g mem => primary g (List.mem_append_left _ mem))
      (fun g mem h mem' => agree g (List.mem_append_left _ mem) h (List.mem_append_left _ mem'))
      (fun g mem h mem' => determines g (List.mem_append_left _ mem) h
        (List.mem_append_left _ mem'))
    intro g' mem key v claim
    rcases List.mem_append.mp mem with mem | mem
    · obtain ⟨w, found, related⟩ := earlier g' mem key v claim
      exact ⟨w, step.keeps found, related⟩
    · cases List.mem_singleton.mp mem
      cases step with
      | add free entries others => exact ⟨v, entries _ claim, refl v⟩
      | skip taken =>
        -- the group that took the primary key has all the entries of the skipped one
        obtain ⟨w, hw⟩ := Option.isSome_iff_exists.mp taken
        obtain ⟨h, hmem, hclaim, holds⟩ := before.origin hw
        obtain ⟨⟨k, own⟩, ownMem, rfl⟩ := List.mem_map.mp (primary g (by simp))
        have shared := agree g (by simp) h (List.mem_append_left _ hmem) _ own (some w) ownMem
          hclaim
        cases shared with
        | some related =>
          obtain ⟨w', claim', related'⟩ := determines g (by simp) h
            (List.mem_append_left _ hmem) _ w ownMem hclaim related key v claim
          exact ⟨w', holds key w' claim', related'⟩

/-- The map holds, up to `R`, all that any of the groups claims. -/
theorem Loads.faithful (loads : Loads groups env) (refl : ∀ v, R v v)
    (primary : ∀ g ∈ groups, g.primary ∈ g.keys)
    (agree : ∀ g ∈ groups, ∀ h ∈ groups, Agree R g h)
    (determines : ∀ g ∈ groups, ∀ h ∈ groups, Determines R g h) :
    ∀ g ∈ groups, HoldsUpTo R env g := by
  rintro g mem ⟨key, _ | v⟩ claim
  · cases found : env key with
    | none => simp
    | some w =>
      obtain ⟨h, hmem, hclaim, _⟩ := loads.origin found
      cases agree g mem h hmem key none (some w) claim hclaim
  · obtain ⟨w, found, related⟩ := loads.found refl primary agree determines g mem key v claim
    simpa [found] using Option.Rel.some related

/-- A group without repeated keys agrees with itself. -/
theorem claim_unique {g : Group κ ν} (nodup : g.keys.Nodup) {key : κ} {v w : Option ν}
    (hv : (key, v) ∈ g.claims) (hw : (key, w) ∈ g.claims) : v = w := by
  have inj := List.inj_on_of_nodup_map nodup
  exact (Prod.mk.inj (inj hv hw rfl)).2

end NpaCore.FlatLoad
