import NpaCore.Lib.Result
import NpaCore.Syntax.Renormalize

/-!
# Levels of the external checker

`ext_name.ml` and the normalisation of `ext_level.ml`. Names are lists of components, compared
as dotted strings where an order is needed and as lists where equality is.

## Main results

`normalize_eval`: normalisation keeps the value under every valuation.
`normalize_params`: it brings in no parameter.
-/

namespace NpaCore.External

/-! ### Names -/

/-- `Ext_name.t`. -/
structure Name where
  components : List String
  deriving DecidableEq, Repr

namespace Name

/-- `Ext_name.to_string`. -/
def toString (name : Name) : String := ".".intercalate name.components

/-- `String.compare` of the dotted strings. -/
instance : Ord Name := ⟨fun lhs rhs => compare lhs.toString rhs.toString⟩

end Name

abbrev Level := NpaCore.Level Name

def humanUniverseMetaPrefix : String := "__npa_internal_human_universe_meta#"

def componentContainsUniverseMeta (name : Name) : Bool :=
  name.components.any fun component =>
    humanUniverseMetaPrefix.toList.isPrefixOf component.toList || component.toList.contains '?'

/-! ### Normalisation -/

open NpaCore.Level (levelFromNat levelFromNat_size NumeralReader renormalizeMax renormalize
  renormalize_eval renormalize_params renormalize_size)

/-- `level_as_nat`. No level in memory has enough successors to leave the native range. -/
def levelAsNat : Level → Option Nat
  | .zero => some 0
  | .succ inner => (levelAsNat inner).map (· + 1)
  | .max _ _ | .imax _ _ | .param _ => none

/-- `compare_level`. -/
def compareLevel (lhs rhs : Level) : Ordering := lhs.levelCmpStackSafe rhs

theorem levelAsNat_eq_some {level : Level} {n : Nat} (h : levelAsNat level = some n) :
    level = levelFromNat n := by
  induction level generalizing n with
  | zero =>
    cases h
    rfl
  | succ inner ih =>
    obtain ⟨m, found, rfl⟩ := Option.map_eq_some_iff.mp h
    rw [ih found]
    rfl
  | max | imax | param => cases h

/-- Native integers. -/
def numeralReader : NumeralReader Name where
  asNat := levelAsNat
  lt_size h := by
    rw [levelAsNat_eq_some h, levelFromNat_size]
    exact Nat.lt_succ_self _

/-- `normalize`. -/
def normalize (level : Level) : Level := renormalize numeralReader level

theorem normalize_size (level : Level) : (normalize level).size ≤ level.size :=
  renormalize_size numeralReader level

theorem normalize_eval (ρ : Name → Nat) (level : Level) : (normalize level).eval ρ = level.eval ρ :=
  renormalize_eval numeralReader levelAsNat_eq_some ρ level

theorem normalize_params (level : Level) : (normalize level).params ⊆ level.params :=
  renormalize_params numeralReader level

end NpaCore.External
