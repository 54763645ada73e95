import NpaCore.Lib.Encoding
import NpaCore.Syntax.Positivity
import NpaCore.Wire.Format
import NpaCore.Certificate.DeclarationOrder

/-!
# The bytes of a core expression

`core_expr_canonical_bytes` of `npa-cert/src/hash.rs`, from which the hash of a statement
is computed: binder names are left out and levels are written in normal form. Lengths and
indices are numbers of any size here.

## Main results

* `encodeCoreExpr_eq`: the loop over the pending expressions writes the bytes of the tree.
* `coreExprCanonicalBytes_eq_iff`: two expressions have the same bytes exactly when they
  are equal but for binder names and the normal forms of their levels.
-/

namespace NpaCore.Certificate

open NpaCore.Encoding
open NpaCore.Wire (Bytes encodeUvarGroups encodeUvar)

/-! ### Numbers and names -/

/-- `encode_uvar_to`: a number has fewer groups of seven bits than its successor. -/
def encodeUvarTo (value : Nat) : Bytes := encodeUvarGroups (value + 1) value

/-- The two texts agree group by group; the first byte says whether more groups follow. -/
theorem encodeUvarGroups_inj {groups groups' value value' : Nat} {s t : Bytes}
    (fits : value < 128 ^ groups) (fits' : value' < 128 ^ groups')
    (same : encodeUvarGroups groups value ++ s = encodeUvarGroups groups' value' ++ t) :
    groups ≠ 0 → groups' ≠ 0 → value = value' ∧ s = t := by
  induction groups generalizing groups' value value' with
  | zero => exact fun none => absurd rfl none
  | succ groups ih =>
    intro _ some
    obtain _ | groups' := groups'
    · exact absurd rfl some
    have toNat : ∀ {n : Nat}, n < 256 → (UInt8.ofNat n).toNat = n :=
      fun small => UInt8.toNat_ofNat_of_lt' small
    rw [encodeUvarGroups, encodeUvarGroups] at same
    by_cases short : value < 128 <;> by_cases short' : value' < 128
    · rw [if_pos short, if_pos short', List.singleton_append, List.singleton_append] at same
      obtain ⟨byte, rest⟩ := List.cons.inj same
      have number := congrArg UInt8.toNat byte
      rw [toNat (by omega), toNat (by omega)] at number
      exact ⟨number, rest⟩
    · rw [if_pos short, if_neg short', List.singleton_append, List.cons_append] at same
      have number := congrArg UInt8.toNat (List.cons.inj same).1
      rw [toNat (by omega), toNat (by omega)] at number
      omega
    · rw [if_neg short, if_pos short', List.singleton_append, List.cons_append] at same
      have number := congrArg UInt8.toNat (List.cons.inj same).1
      rw [toNat (by omega), toNat (by omega)] at number
      omega
    · rw [if_neg short, if_neg short', List.cons_append, List.cons_append] at same
      obtain ⟨byte, others⟩ := List.cons.inj same
      have low := congrArg UInt8.toNat byte
      rw [toNat (by omega), toNat (by omega)] at low
      rw [Nat.pow_succ] at fits fits'
      have more : groups ≠ 0 := by
        rintro rfl
        omega
      have more' : groups' ≠ 0 := by
        rintro rfl
        omega
      obtain ⟨high, rest⟩ := ih (by omega) (by omega) others more more'
      exact ⟨by omega, rest⟩

/-- Groups that the number does not need are not written. -/
theorem encodeUvarGroups_eq {groups groups' value : Nat} (fits : value < 128 ^ (groups + 1))
    (fits' : value < 128 ^ (groups' + 1)) :
    encodeUvarGroups (groups + 1) value = encodeUvarGroups (groups' + 1) value := by
  have unfolded : ∀ more : Nat, encodeUvarGroups (more + 1) value =
      if value < 128 then [UInt8.ofNat value]
      else UInt8.ofNat (value % 128 + 128) :: encodeUvarGroups more (value / 128) := fun _ => rfl
  induction groups generalizing groups' value with
  | zero =>
    have short : value < 128 := by simpa using fits
    rw [unfolded, unfolded, if_pos short, if_pos short]
  | succ groups ih =>
    by_cases short : value < 128
    · rw [unfolded, unfolded, if_pos short, if_pos short]
    · obtain _ | groups' := groups'
      · exact absurd (by simpa using fits') short
      rw [Nat.pow_succ] at fits fits'
      have others : encodeUvarGroups (groups + 1) (value / 128) =
          encodeUvarGroups (groups' + 1) (value / 128) :=
        ih (Nat.div_lt_of_lt_mul (by omega)) (Nat.div_lt_of_lt_mul (by omega)) fun _ => rfl
      rw [unfolded, unfolded, if_neg short, if_neg short, others]

theorem lt_groups (value : Nat) : value < 128 ^ (value + 1) :=
  Nat.lt_of_lt_of_le (Nat.lt_pow_self (by decide)) (Nat.pow_le_pow_right (by decide) (by omega))

theorem encodeUvarTo_unambiguous : Unambiguous encodeUvarTo := fun value value' _ _ same =>
  encodeUvarGroups_inj (lt_groups value) (lt_groups value') same (by omega) (by omega)

/-- On a `u64` this is the encoding of the certificate format. -/
theorem encodeUvarTo_toNat (value : Wire.Id) : encodeUvarTo value.toNat = encodeUvar value :=
  encodeUvarGroups_eq (lt_groups value.toNat)
    (Nat.lt_of_lt_of_le value.toNat_lt (by decide : 2 ^ 64 ≤ 128 ^ (9 + 1)))

/-- `Name::from_dotted`. -/
def fromDotted (name : String) : List String := (nameComponents name).map String.ofList

theorem fromDotted_injective : Function.Injective fromDotted := fun _ _ same =>
  nameComponents_injective
    (List.map_injective_iff.mpr (fun _ _ text => String.ofList_injective text) same)

/-- A component of a name: its length in bytes, then its UTF-8 bytes. -/
def encodeComponentTo (component : String) : Bytes :=
  encodeUvarTo component.toByteArray.data.toList.length ++ component.toByteArray.data.toList

theorem encodeComponentTo_unambiguous : Unambiguous encodeComponentTo := by
  have bytes : Function.Injective fun component : String => component.toByteArray.data.toList :=
    fun _ _ same => String.toByteArray_inj.mp (ByteArray.ext (Array.toList_inj.mp same))
  exact (Unambiguous.text encodeUvarTo_unambiguous).comp bytes

/-- `encode_name_to`. -/
def encodeNameTo (components : List String) : Bytes :=
  encodeUvarTo components.length ++ components.flatMap encodeComponentTo

theorem encodeNameTo_unambiguous : Unambiguous encodeNameTo :=
  Unambiguous.vec encodeUvarTo_unambiguous encodeComponentTo_unambiguous

theorem encodeDotted_unambiguous : Unambiguous fun name => encodeNameTo (fromDotted name) :=
  encodeNameTo_unambiguous.comp fromDotted_injective

/-! ### Levels -/

/-- What `encode_core_level_to` does with the level on top of its stack. -/
def levelWriter : Encoding.Writer Kernel.Level UInt8 where
  text
    | .zero => [0x00]
    | .succ _ => [0x01]
    | .max _ _ => [0x02]
    | .imax _ _ => [0x03]
    | .param name => 0x04 :: encodeNameTo (fromDotted name)
  below
    | .zero => []
    | .succ inner => [inner]
    | .max lhs rhs => [lhs, rhs]
    | .imax lhs rhs => [lhs, rhs]
    | .param _ => []
  size := Level.size
  size_below
    | .zero => by simp [Level.size]
    | .succ _ => by simp [Level.size]
    | .max _ _ => by simp [Level.size]
    | .imax _ _ => by simp [Level.size]
    | .param _ => by simp [Level.size]

/-- `encode_core_level_to`. -/
def encodeCoreLevelTo (level : Kernel.Level) : Bytes :=
  emit levelWriter [level.normalizeLevel] []

/-- The bytes of a level as it stands. -/
def levelBytes : Kernel.Level → Bytes
  | .zero => [0x00]
  | .succ inner => 0x01 :: levelBytes inner
  | .max lhs rhs => 0x02 :: (levelBytes lhs ++ levelBytes rhs)
  | .imax lhs rhs => 0x03 :: (levelBytes lhs ++ levelBytes rhs)
  | .param name => 0x04 :: encodeNameTo (fromDotted name)

theorem encodeCoreLevelTo_eq (level : Kernel.Level) :
    encodeCoreLevelTo level = levelBytes level.normalizeLevel := by
  have encodes : ∀ tree, levelBytes tree =
      levelWriter.text tree ++ (levelWriter.below tree).flatMap levelBytes := by
    intro tree
    cases tree <;> simp [levelBytes, levelWriter]
  rw [encodeCoreLevelTo, emit_eq_flatMap encodes]
  simp

/-- By induction on the first level; the tag fixes the shape of the second. -/
theorem levelBytes_unambiguous : Unambiguous levelBytes := by
  intro a b s t same
  induction a generalizing b s t with
  | zero => cases b <;> simp_all [levelBytes]
  | succ inner ih =>
    cases b with
    | succ inner' =>
      simp only [levelBytes, List.cons_append, List.cons.injEq, true_and] at same
      obtain ⟨rfl, rest⟩ := ih same
      exact ⟨rfl, rest⟩
    | _ => simp [levelBytes] at same
  | max lhs rhs ihl ihr =>
    cases b with
    | max lhs' rhs' =>
      simp only [levelBytes, List.cons_append, List.append_assoc, List.cons.injEq,
        true_and] at same
      obtain ⟨rfl, others⟩ := ihl same
      obtain ⟨rfl, rest⟩ := ihr others
      exact ⟨rfl, rest⟩
    | _ => simp [levelBytes] at same
  | imax lhs rhs ihl ihr =>
    cases b with
    | imax lhs' rhs' =>
      simp only [levelBytes, List.cons_append, List.append_assoc, List.cons.injEq,
        true_and] at same
      obtain ⟨rfl, others⟩ := ihl same
      obtain ⟨rfl, rest⟩ := ihr others
      exact ⟨rfl, rest⟩
    | _ => simp [levelBytes] at same
  | param name =>
    cases b with
    | param name' =>
      simp only [levelBytes, List.cons_append, List.cons.injEq, true_and] at same
      obtain ⟨rfl, rest⟩ := encodeDotted_unambiguous same
      exact ⟨rfl, rest⟩
    | _ => simp [levelBytes] at same

/-! ### Expressions -/

theorem levelEq_eq_true_iff (lhs rhs : Kernel.Level) :
    lhs.levelEq rhs = true ↔ lhs.normalizeLevel = rhs.normalizeLevel := by
  rw [Level.levelEq, Level.levelEqStackSafe_iff]

theorem levelsEq_eq_true_iff (lhs rhs : List Kernel.Level) :
    Level.levelsEq lhs rhs = true ↔ lhs.map Level.normalizeLevel = rhs.map Level.normalizeLevel := by
  induction lhs generalizing rhs with
  | nil => cases rhs <;> simp [Level.levelsEq]
  | cons l lhs ih =>
    cases rhs with
    | nil => simp [Level.levelsEq]
    | cons r rhs =>
      simp only [Level.levelsEq, Bool.and_eq_true, beq_iff_eq] at ih
      simp only [Level.levelsEq, List.length_cons, List.zip_cons_cons, List.all_cons,
        Bool.and_eq_true, beq_iff_eq, levelEq_eq_true_iff, Nat.add_right_cancel_iff,
        List.map_cons, List.cons.injEq, ← ih]
      exact and_left_comm

/-- The level list of a constant. -/
def encodeLevelsTo (levels : List Kernel.Level) : Bytes :=
  encodeUvarTo levels.length ++ levels.flatMap encodeCoreLevelTo

/-- What `encode_core_expr_to` does with the expression on top of its stack. -/
def exprWriter : Encoding.Writer Kernel.Expr UInt8 where
  text
    | .sort level => 0x00 :: encodeCoreLevelTo level
    | .bvar index => 0x01 :: encodeUvarTo index
    | .const name levels => 0x02 :: (encodeNameTo (fromDotted name) ++ encodeLevelsTo levels)
    | .app _ _ => [0x03]
    | .lam _ _ _ => [0x04]
    | .pi _ _ _ => [0x05]
  below
    | .app fn arg => [fn, arg]
    | .lam _ ty body => [ty, body]
    | .pi _ ty body => [ty, body]
    | _ => []
  size := Expr.size
  size_below
    | .sort _ => by simp [Expr.size]
    | .bvar _ => by simp [Expr.size]
    | .const _ _ => by simp [Expr.size]
    | .app _ _ => by simp [Expr.size]
    | .lam _ _ _ => by simp [Expr.size]
    | .pi _ _ _ => by simp [Expr.size]

/-- `encode_core_expr_to`, on an empty output. -/
def encodeCoreExprTo (expr : Kernel.Expr) : Bytes := emit exprWriter [expr] []

/-- `core_expr_canonical_bytes`. -/
def coreExprCanonicalBytes (expr : Kernel.Expr) : Bytes := encodeCoreExprTo expr

/-- The bytes of an expression by recursion on it. -/
def exprBytes : Kernel.Expr → Bytes
  | .sort level => 0x00 :: encodeCoreLevelTo level
  | .bvar index => 0x01 :: encodeUvarTo index
  | .const name levels => 0x02 :: (encodeNameTo (fromDotted name) ++ encodeLevelsTo levels)
  | .app fn arg => 0x03 :: (exprBytes fn ++ exprBytes arg)
  | .lam _ ty body => 0x04 :: (exprBytes ty ++ exprBytes body)
  | .pi _ ty body => 0x05 :: (exprBytes ty ++ exprBytes body)

theorem encodeCoreExprTo_eq (expr : Kernel.Expr) : encodeCoreExprTo expr = exprBytes expr := by
  have encodes : ∀ tree, exprBytes tree =
      exprWriter.text tree ++ (exprWriter.below tree).flatMap exprBytes := by
    intro tree
    cases tree <;> simp [exprBytes, exprWriter]
  rw [encodeCoreExprTo, emit_eq_flatMap encodes]
  simp

theorem encodeLevelsTo_eq_iff {levels levels' : List Kernel.Level} {s t : Bytes} :
    encodeLevelsTo levels ++ s = encodeLevelsTo levels' ++ t ↔
      Level.levelsEq levels levels' = true ∧ s = t := by
  have normal : ∀ levels, encodeLevelsTo levels =
      encodeUvarTo (levels.map Level.normalizeLevel).length ++
        (levels.map Level.normalizeLevel).flatMap levelBytes := by
    intro levels
    have bytes : encodeCoreLevelTo = fun level => levelBytes level.normalizeLevel :=
      funext encodeCoreLevelTo_eq
    rw [encodeLevelsTo, List.length_map, List.flatMap_map, bytes]
  rw [normal, normal, levelsEq_eq_true_iff]
  constructor
  · exact fun same => Unambiguous.vec encodeUvarTo_unambiguous levelBytes_unambiguous same
  · rintro ⟨same, rfl⟩
    rw [same]

/-- Two texts that start with the bytes of expressions agree exactly when the expressions
    and the rests do. By induction on the first expression; the tag fixes the shape of the
    second. -/
theorem exprBytes_append_eq_iff {a b : Kernel.Expr} {s t : Bytes} :
    exprBytes a ++ s = exprBytes b ++ t ↔ a.exprEqIgnoringBinderNames b = true ∧ s = t := by
  induction a generalizing b s t with
  | sort level =>
    cases b with
    | sort level' =>
      simp only [exprBytes, List.cons_append, List.cons.injEq, true_and, encodeCoreLevelTo_eq,
        Expr.exprEqIgnoringBinderNames, levelEq_eq_true_iff]
      exact levelBytes_unambiguous.append_eq_iff
    | _ => simp [exprBytes, Expr.exprEqIgnoringBinderNames]
  | bvar index =>
    cases b with
    | bvar index' =>
      simp only [exprBytes, List.cons_append, List.cons.injEq, true_and,
        Expr.exprEqIgnoringBinderNames, decide_eq_true_eq]
      exact encodeUvarTo_unambiguous.append_eq_iff
    | _ => simp [exprBytes, Expr.exprEqIgnoringBinderNames]
  | const name levels =>
    cases b with
    | const name' levels' =>
      simp only [exprBytes, List.cons_append, List.append_assoc, List.cons.injEq, true_and,
        Expr.exprEqIgnoringBinderNames, Bool.and_eq_true, decide_eq_true_eq]
      rw [encodeDotted_unambiguous.append_eq_iff, encodeLevelsTo_eq_iff, and_assoc]
    | _ => simp [exprBytes, Expr.exprEqIgnoringBinderNames]
  | app fn arg ihFn ihArg =>
    cases b with
    | app fn' arg' =>
      simp only [exprBytes, List.cons_append, List.append_assoc, List.cons.injEq, true_and,
        Expr.exprEqIgnoringBinderNames, Bool.and_eq_true]
      rw [ihFn, ihArg, and_assoc]
    | _ => simp [exprBytes, Expr.exprEqIgnoringBinderNames]
  | lam binder ty body ihTy ihBody =>
    cases b with
    | lam binder' ty' body' =>
      simp only [exprBytes, List.cons_append, List.append_assoc, List.cons.injEq, true_and,
        Expr.exprEqIgnoringBinderNames, Bool.and_eq_true]
      rw [ihTy, ihBody, and_assoc]
    | _ => simp [exprBytes, Expr.exprEqIgnoringBinderNames]
  | pi binder ty body ihTy ihBody =>
    cases b with
    | pi binder' ty' body' =>
      simp only [exprBytes, List.cons_append, List.append_assoc, List.cons.injEq, true_and,
        Expr.exprEqIgnoringBinderNames, Bool.and_eq_true]
      rw [ihTy, ihBody, and_assoc]
    | _ => simp [exprBytes, Expr.exprEqIgnoringBinderNames]

/-- Core expression bytes identify exactly the expressions that differ in binder names or
    in levels with one normal form. -/
theorem coreExprCanonicalBytes_eq_iff (a b : Kernel.Expr) :
    coreExprCanonicalBytes a = coreExprCanonicalBytes b ↔
      a.exprEqIgnoringBinderNames b = true := by
  rw [coreExprCanonicalBytes, coreExprCanonicalBytes, encodeCoreExprTo_eq, encodeCoreExprTo_eq]
  have texts := exprBytes_append_eq_iff (a := a) (b := b) (s := []) (t := [])
  simpa only [List.append_nil, and_true] using texts

end NpaCore.Certificate
