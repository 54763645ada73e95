import NpaCore.Frontend.TermSource
import NpaCore.Wire.Primitive

/-!
# What the canonical codec of terms accepts

The check and the decoder accept the same terms: nested at most 64 deep, within the
budget of nodes, with lists that are neither empty nor too long, and with canonical
spellings. On these the decoder undoes the encoder, and it reads nothing else.

## Main results

* `validateTerm_eq_ok`: the check, with the nodes it takes.
* `decodeMachineTermSourceCanonical_eq_ok`: the decoder succeeds on exactly the canonical
  bytes of the terms that pass the check.
-/

namespace NpaCore.Frontend

open NpaCore.Wire (Bytes encodeUvar encodeString)

/-! ### Spellings, nesting and size -/

/-- What is asked of the spellings and of the lists in a term. An identifier is the head of
a name, a binder or a universe parameter; a component follows a dot. -/
structure Spelling where
  identifier : String → Prop
  component : String → Prop
  len : Nat → Prop

def MachineLevel.Spelled (spelling : Spelling) : MachineLevel → Prop
  | .nat _ => True
  | .param name => spelling.identifier name
  | .succ level => level.Spelled spelling
  | .max lhs rhs | .imax lhs rhs => lhs.Spelled spelling ∧ rhs.Spelled spelling

def SpelledParts (spelling : Spelling) : List String → Prop
  | [] => True
  | head :: components =>
    spelling.identifier head ∧ ∀ component ∈ components, spelling.component component

def SpelledArgs (spelling : Spelling) : Option (List MachineLevel) → Prop
  | none => True
  | some levels => spelling.len levels.length ∧ ∀ level ∈ levels, level.Spelled spelling

mutual

/-- A term of the source has no resolved locals. -/
def MachineTerm.Spelled (spelling : Spelling) : MachineTerm → Prop
  | .ident name universeArgs _ =>
    spelling.len name.parts.length ∧ SpelledParts spelling name.parts ∧
      SpelledArgs spelling universeArgs
  | .local _ => False
  | .prop => True
  | .type level | .sort level => level.Spelled spelling
  | .app func arg => func.Spelled spelling ∧ arg.Spelled spelling
  | .lam binders body | .pi binders body =>
    spelling.len binders.length ∧ SpelledBinders spelling binders ∧ body.Spelled spelling
  | .annot expr ty => expr.Spelled spelling ∧ ty.Spelled spelling

def SpelledBinders (spelling : Spelling) : List MachineBinder → Prop
  | [] => True
  | .mk name ty :: binders =>
    spelling.identifier name ∧ ty.Spelled spelling ∧ SpelledBinders spelling binders

end

/-- How deep a level is nested below its own node. -/
def MachineLevel.height : MachineLevel → Nat
  | .nat _ | .param _ => 0
  | .succ level => level.height + 1
  | .max lhs rhs | .imax lhs rhs => Max.max lhs.height rhs.height + 1

def levelsHeight : List MachineLevel → Nat
  | [] => 0
  | level :: levels => Max.max (level.height + 1) (levelsHeight levels)

mutual

def MachineTerm.height : MachineTerm → Nat
  | .ident _ none _ | .local _ | .prop => 0
  | .ident _ (some levels) _ => levelsHeight levels
  | .type level | .sort level => level.height + 1
  | .app func arg => Max.max func.height arg.height + 1
  | .lam binders body | .pi binders body => Max.max (bindersHeight binders) (body.height + 1)
  | .annot expr ty => Max.max expr.height ty.height + 1

def bindersHeight : List MachineBinder → Nat
  | [] => 0
  | .mk _ ty :: binders => Max.max (ty.height + 1) (bindersHeight binders)

end

def MachineLevel.nodes : MachineLevel → Nat
  | .nat _ | .param _ => 1
  | .succ level => level.nodes + 1
  | .max lhs rhs | .imax lhs rhs => lhs.nodes + rhs.nodes + 1

def levelsNodes (levels : List MachineLevel) : Nat := (levels.map MachineLevel.nodes).sum

mutual

def MachineTerm.nodes : MachineTerm → Nat
  | .ident _ none _ | .local _ | .prop => 1
  | .ident _ (some levels) _ => levelsNodes levels + 1
  | .type level | .sort level => level.nodes + 1
  | .app func arg => func.nodes + arg.nodes + 1
  | .lam binders body | .pi binders body => bindersNodes binders + body.nodes + 1
  | .annot expr ty => expr.nodes + ty.nodes + 1

def bindersNodes : List MachineBinder → Nat
  | [] => 0
  | .mk _ ty :: binders => ty.nodes + bindersNodes binders

end

/-- Nothing is asked, except that locals are not resolved. -/
def anySpelling : Spelling where
  identifier _ := True
  component _ := True
  len _ := True

/-- The limits of the canonical form on strings and lists. -/
def canonicalLimits : Spelling where
  identifier name := name.utf8ByteSize ≤ maxCanonicalStringLen
  component name := name.utf8ByteSize ≤ maxCanonicalStringLen
  len count := count ≤ maxCanonicalListLen

structure MachineTerm.WithinLimits (term : MachineTerm) : Prop where
  depth : term.height ≤ maxCanonicalDepth
  nodes : term.nodes ≤ maxCanonicalNodes
  lengths : term.Spelled canonicalLimits

/-- What the check and the decoder ask of spellings and lists, the limits included. -/
def canonicalSpelling : Spelling where
  identifier name := name.utf8ByteSize ≤ maxCanonicalStringLen ∧
    isMachineIdentifier name = true ∧ isReservedSpelling name = false
  component name := name.utf8ByteSize ≤ maxCanonicalStringLen ∧ isMachineIdentifier name = true
  len count := count ≠ 0 ∧ count ≤ maxCanonicalListLen

/-! ### The check -/

variable {u : Unit}

section Validate

variable {α β : Type}

section Steps

variable {remaining left : Nat}

theorem budgeted_bind_eq_ok {x : Budgeted α} {f : α → Budgeted β} {b : β} :
    (x >>= f) remaining = .ok (b, left) ↔
      ∃ a middle, x remaining = .ok (a, middle) ∧ f a middle = .ok (b, left) := by
  change (x remaining >>= fun result => f result.1 result.2) = _ ↔ _
  simp [Result.bind_eq_ok]

theorem budgeted_pure_eq_ok {a b : α} :
    (pure a : Budgeted α) remaining = .ok (b, left) ↔ a = b ∧ remaining = left := by
  change Except.ok (a, remaining) = _ ↔ _
  simp

theorem budgeted_lift_eq_ok {x : MachineResult α} {a : α} :
    (liftM x : Budgeted α) remaining = .ok (a, left) ↔ x = .ok a ∧ remaining = left := by
  change (x >>= fun a => .ok (a, remaining)) = _ ↔ _
  simp [Result.bind_eq_ok]

theorem consumeCanonicalNode_eq_ok :
    consumeCanonicalNode remaining = .ok (u, left) ↔ remaining = left + 1 := by
  cases remaining with
  | zero => simp [consumeCanonicalNode, refuse]
  | succ remaining => simp [consumeCanonicalNode]

theorem ensureCanonicalDepth_eq_ok {depth : Nat} :
    ensureCanonicalDepth depth = .ok u ↔ depth ≤ maxCanonicalDepth := by
  simp [ensureCanonicalDepth]

theorem validateIdentifier_eq_ok {value what : String} :
    validateIdentifierForCanonicalEncoding value what = .ok u ↔
      canonicalSpelling.identifier value := by
  simp [validateIdentifierForCanonicalEncoding, ensureCanonicalStringLen, Result.bind_eq_ok,
    canonicalSpelling]

theorem validateComponent_eq_ok {value : String} :
    validateDottedNameComponentForCanonicalEncoding value = .ok u ↔
      canonicalSpelling.component value := by
  simp [validateDottedNameComponentForCanonicalEncoding, ensureCanonicalStringLen,
    Result.bind_eq_ok, canonicalSpelling]

/-- The first two steps of every check: the node is not too deep and is in the budget. -/
theorem enterNode_eq_ok {depth : Nat} {f : Budgeted Unit} :
    (do
      ensureCanonicalDepth depth
      consumeCanonicalNode
      f : Budgeted Unit) remaining = .ok (u, left) ↔
      depth ≤ maxCanonicalDepth ∧ ∃ middle, remaining = middle + 1 ∧ f middle = .ok (u, left) := by
  simp only [budgeted_bind_eq_ok, budgeted_lift_eq_ok, ensureCanonicalDepth_eq_ok,
    consumeCanonicalNode_eq_ok]
  constructor
  · rintro ⟨_, _, ⟨deep, rfl⟩, _, middle, rfl, h⟩
    exact ⟨deep, middle, rfl, h⟩
  · rintro ⟨deep, middle, rfl, h⟩
    exact ⟨(), _, ⟨deep, rfl⟩, (), middle, rfl, h⟩

theorem leafNode_eq_ok {depth : Nat} :
    (do
      ensureCanonicalDepth depth
      consumeCanonicalNode : Budgeted Unit) remaining = .ok (u, left) ↔
      depth ≤ maxCanonicalDepth ∧ remaining = left + 1 := by
  simp only [budgeted_bind_eq_ok, budgeted_lift_eq_ok, ensureCanonicalDepth_eq_ok,
    consumeCanonicalNode_eq_ok]
  constructor
  · rintro ⟨_, _, ⟨deep, rfl⟩, rfl⟩
    exact ⟨deep, rfl⟩
  · rintro ⟨deep, rfl⟩
    exact ⟨(), _, ⟨deep, rfl⟩, rfl⟩

end Steps

theorem validateLevel_eq_ok (level : MachineLevel) {depth remaining left : Nat} :
    validateLevelForCanonicalEncodingAtDepth depth level remaining = .ok (u, left) ↔
      depth + level.height ≤ maxCanonicalDepth ∧ level.Spelled canonicalSpelling ∧
        remaining = left + level.nodes := by
  induction level generalizing depth remaining left with
  | nat value =>
    rw [validateLevelForCanonicalEncodingAtDepth, leafNode_eq_ok]
    simp [MachineLevel.height, MachineLevel.Spelled, MachineLevel.nodes]
  | param name =>
    rw [validateLevelForCanonicalEncodingAtDepth, enterNode_eq_ok]
    simp only [budgeted_lift_eq_ok, validateIdentifier_eq_ok, MachineLevel.height,
      MachineLevel.Spelled, MachineLevel.nodes]
    constructor
    · rintro ⟨deep, middle, rfl, spelled, rfl⟩
      exact ⟨deep, spelled, rfl⟩
    · rintro ⟨deep, spelled, rfl⟩
      exact ⟨deep, left, rfl, spelled, rfl⟩
  | succ level ih =>
    rw [validateLevelForCanonicalEncodingAtDepth, enterNode_eq_ok]
    simp only [ih, MachineLevel.height, MachineLevel.Spelled, MachineLevel.nodes]
    constructor
    · rintro ⟨deep, middle, rfl, inner, spelled, rfl⟩
      exact ⟨by omega, spelled, by omega⟩
    · rintro ⟨deep, spelled, rfl⟩
      exact ⟨by omega, _, rfl, by omega, spelled, rfl⟩
  | max lhs rhs ihl ihr | imax lhs rhs ihl ihr =>
    rw [validateLevelForCanonicalEncodingAtDepth, enterNode_eq_ok]
    simp only [budgeted_bind_eq_ok, ihl, ihr, MachineLevel.height, MachineLevel.Spelled,
      MachineLevel.nodes]
    constructor
    · rintro ⟨deep, _, rfl, _, middle, ⟨hl, spelledl, rfl⟩, hr, spelledr, rfl⟩
      exact ⟨by omega, ⟨spelledl, spelledr⟩, by omega⟩
    · rintro ⟨deep, ⟨spelledl, spelledr⟩, rfl⟩
      exact ⟨by omega, left + lhs.nodes + rhs.nodes, by omega, (), left + rhs.nodes,
        ⟨by omega, spelledl, by omega⟩, by omega, spelledr, rfl⟩

theorem validateLevels_eq_ok (levels : List MachineLevel) {depth remaining left : Nat} :
    validateLevelsForCanonicalEncodingAtDepth (depth + 1) levels remaining = .ok (u, left) ↔
      (levels ≠ [] → depth + levelsHeight levels ≤ maxCanonicalDepth) ∧
        (∀ level ∈ levels, level.Spelled canonicalSpelling) ∧
        remaining = left + levelsNodes levels := by
  induction levels generalizing remaining with
  | nil =>
    rw [validateLevelsForCanonicalEncodingAtDepth, budgeted_pure_eq_ok]
    simp [levelsNodes]
  | cons level levels ih =>
    simp only [validateLevelsForCanonicalEncodingAtDepth, budgeted_bind_eq_ok,
      validateLevel_eq_ok, ih, levelsHeight, levelsNodes, List.map_cons, List.sum_cons,
      List.mem_cons, forall_eq_or_imp]
    constructor
    · rintro ⟨_, middle, ⟨hl, spelled, rfl⟩, hls, others, rfl⟩
      refine ⟨fun _ => ?_, ⟨spelled, others⟩, by omega⟩
      by_cases empty : levels = []
      · subst empty
        simp only [levelsHeight]
        omega
      · have := hls empty
        omega
    · rintro ⟨deep, ⟨spelled, others⟩, rfl⟩
      have := deep (by simp)
      exact ⟨(), left + (levels.map MachineLevel.nodes).sum, ⟨by omega, spelled, by omega⟩,
        fun _ => by omega, others, rfl⟩

theorem validateName_eq_ok {parts : List String} :
    validateNameForCanonicalEncoding parts = .ok u ↔
      canonicalSpelling.len parts.length ∧ SpelledParts canonicalSpelling parts := by
  cases parts with
  | nil =>
    simp [validateNameForCanonicalEncoding, ensureNonEmptyCanonicalList, Result.bind_eq_ok,
      canonicalSpelling]
  | cons head components =>
    simp only [validateNameForCanonicalEncoding, ensureNonEmptyCanonicalList,
      ensureCanonicalListLen, Result.bind_eq_ok, Result.ensure_eq_ok, validateIdentifier_eq_ok,
      Result.forEach_eq_ok, validateComponent_eq_ok, SpelledParts]
    simp [canonicalSpelling]

theorem ensureList_eq_ok {count remaining left : Nat} {nonEmpty : Bool} {what : String}
    {f : Budgeted Unit} (h : nonEmpty = true ↔ count ≠ 0) :
    (do
      ensureNonEmptyCanonicalList nonEmpty what
      ensureCanonicalListLen count what
      f : Budgeted Unit) remaining = .ok (u, left) ↔
      canonicalSpelling.len count ∧ f remaining = .ok (u, left) := by
  simp only [budgeted_bind_eq_ok, budgeted_lift_eq_ok, ensureNonEmptyCanonicalList,
    ensureCanonicalListLen, Result.ensure_eq_ok, h, decide_eq_true_eq, canonicalSpelling]
  constructor
  · rintro ⟨_, _, ⟨nonempty, rfl⟩, _, _, ⟨short, rfl⟩, h⟩
    exact ⟨⟨nonempty, short⟩, h⟩
  · rintro ⟨⟨nonempty, short⟩, h⟩
    exact ⟨(), _, ⟨nonempty, rfl⟩, (), _, ⟨short, rfl⟩, h⟩

mutual

theorem validateTerm_eq_ok (term : MachineTerm) (surface : term.Spelled anySpelling)
    {depth remaining left : Nat} :
    validateTermForCanonicalEncodingAtDepth depth term remaining = .ok (u, left) ↔
      depth + term.height ≤ maxCanonicalDepth ∧ term.Spelled canonicalSpelling ∧
        remaining = left + term.nodes := by
  cases term with
  | ident name universeArgs explicitMode =>
    cases universeArgs with
    | none =>
      simp only [validateTermForCanonicalEncodingAtDepth]
      rw [enterNode_eq_ok]
      simp only [budgeted_bind_eq_ok, budgeted_lift_eq_ok, validateName_eq_ok,
        budgeted_pure_eq_ok, MachineTerm.height, MachineTerm.Spelled,
        MachineTerm.nodes, SpelledArgs]
      constructor
      · rintro ⟨deep, middle, rfl, _, _, ⟨⟨len, parts⟩, rfl⟩, _, rfl⟩
        exact ⟨deep, ⟨len, parts, trivial⟩, rfl⟩
      · rintro ⟨deep, ⟨len, parts, _⟩, rfl⟩
        exact ⟨deep, left, rfl, (), left, ⟨⟨len, parts⟩, rfl⟩, trivial, rfl⟩
    | some levels =>
      have count : (!levels.isEmpty) = true ↔ levels.length ≠ 0 := by
        cases levels <;> simp
      simp only [validateTermForCanonicalEncodingAtDepth]
      rw [enterNode_eq_ok]
      simp only [budgeted_bind_eq_ok, budgeted_lift_eq_ok, validateName_eq_ok,
        ensureList_eq_ok count, validateLevels_eq_ok, MachineTerm.height,
        MachineTerm.Spelled, MachineTerm.nodes, SpelledArgs]
      constructor
      · rintro ⟨deep, middle, rfl, _, _, ⟨⟨len, parts⟩, rfl⟩, args, hls, spelled, rfl⟩
        have nonempty : levels ≠ [] := fun empty => args.1 (by simp [empty])
        exact ⟨hls nonempty, ⟨len, parts, args, spelled⟩, by omega⟩
      · rintro ⟨deep, ⟨len, parts, args, spelled⟩, rfl⟩
        exact ⟨by omega, left + levelsNodes levels, by omega, (), _, ⟨⟨len, parts⟩, rfl⟩, args,
          fun _ => deep, spelled, rfl⟩
  | «local» name => exact absurd surface (by simp [MachineTerm.Spelled])
  | prop =>
    rw [validateTermForCanonicalEncodingAtDepth, leafNode_eq_ok]
    simp [MachineTerm.height, MachineTerm.Spelled, MachineTerm.nodes]
  | type level | sort level =>
    rw [validateTermForCanonicalEncodingAtDepth, enterNode_eq_ok]
    simp only [validateLevel_eq_ok, MachineTerm.height, MachineTerm.Spelled, MachineTerm.nodes]
    constructor
    · rintro ⟨deep, middle, rfl, inner, spelled, rfl⟩
      exact ⟨by omega, spelled, by omega⟩
    · rintro ⟨deep, spelled, rfl⟩
      exact ⟨by omega, _, rfl, by omega, spelled, rfl⟩
  | app lhs rhs | annot lhs rhs =>
    rw [validateTermForCanonicalEncodingAtDepth, enterNode_eq_ok]
    rw [MachineTerm.Spelled] at surface
    simp only [budgeted_bind_eq_ok, validateTerm_eq_ok lhs surface.1,
      validateTerm_eq_ok rhs surface.2, MachineTerm.height, MachineTerm.Spelled,
      MachineTerm.nodes]
    constructor
    · rintro ⟨deep, _, rfl, _, middle, ⟨hl, spelledl, rfl⟩, hr, spelledr, rfl⟩
      exact ⟨by omega, ⟨spelledl, spelledr⟩, by omega⟩
    · rintro ⟨deep, ⟨spelledl, spelledr⟩, rfl⟩
      exact ⟨by omega, left + lhs.nodes + rhs.nodes, by omega, (), left + rhs.nodes,
        ⟨by omega, spelledl, by omega⟩, by omega, spelledr, rfl⟩
  | lam binders body | pi binders body =>
    have count : (!binders.isEmpty) = true ↔ binders.length ≠ 0 := by
      cases binders <;> simp
    simp only [validateTermForCanonicalEncodingAtDepth]
    rw [enterNode_eq_ok]
    rw [MachineTerm.Spelled] at surface
    simp only [ensureList_eq_ok count, budgeted_bind_eq_ok,
      validateBinders_eq_ok binders surface.2.1, validateTerm_eq_ok body surface.2.2,
      MachineTerm.height, MachineTerm.Spelled, MachineTerm.nodes]
    constructor
    · rintro ⟨deep, _, rfl, len, _, middle, ⟨hbs, spelledbs, rfl⟩, hb, spelledb, rfl⟩
      have nonempty : binders ≠ [] := fun empty => len.1 (by simp [empty])
      have := hbs nonempty
      exact ⟨by omega, ⟨len, spelledbs, spelledb⟩, by omega⟩
    · rintro ⟨deep, ⟨len, spelledbs, spelledb⟩, rfl⟩
      exact ⟨by omega, left + bindersNodes binders + body.nodes, by omega, len, (),
        left + body.nodes, ⟨fun _ => by omega, spelledbs, by omega⟩, by omega, spelledb, rfl⟩

theorem validateBinders_eq_ok (binders : List MachineBinder)
    (surface : SpelledBinders anySpelling binders) {depth remaining left : Nat} :
    validateBindersForCanonicalEncodingAtDepth (depth + 1) binders remaining = .ok (u, left) ↔
      (binders ≠ [] → depth + bindersHeight binders ≤ maxCanonicalDepth) ∧
        SpelledBinders canonicalSpelling binders ∧ remaining = left + bindersNodes binders := by
  match binders with
  | [] =>
    rw [validateBindersForCanonicalEncodingAtDepth, budgeted_pure_eq_ok]
    simp [SpelledBinders, bindersNodes]
  | .mk name ty :: binders =>
    rw [SpelledBinders] at surface
    simp only [validateBindersForCanonicalEncodingAtDepth, budgeted_bind_eq_ok,
      budgeted_lift_eq_ok, validateIdentifier_eq_ok, validateTerm_eq_ok ty surface.2.1,
      validateBinders_eq_ok binders surface.2.2, bindersHeight, bindersNodes, SpelledBinders]
    constructor
    · rintro ⟨_, _, ⟨named, rfl⟩, _, middle, ⟨hty, spelled, rfl⟩, hbs, others, rfl⟩
      refine ⟨fun _ => ?_, ⟨named, spelled, others⟩, by omega⟩
      by_cases empty : binders = []
      · subst empty
        simp only [bindersHeight]
        omega
      · have := hbs empty
        omega
    · rintro ⟨deep, ⟨named, spelled, others⟩, rfl⟩
      have := deep (by simp)
      exact ⟨(), _, ⟨named, rfl⟩, (), left + bindersNodes binders, ⟨by omega, spelled, by omega⟩,
        fun _ => by omega, others, rfl⟩

end

theorem validateTermForCanonicalEncoding_eq_ok {term : MachineTerm}
    (surface : term.Spelled anySpelling) :
    validateTermForCanonicalEncoding term = .ok u ↔
      term.height ≤ maxCanonicalDepth ∧ term.nodes ≤ maxCanonicalNodes ∧
        term.Spelled canonicalSpelling := by
  simp only [validateTermForCanonicalEncoding, Result.bind_eq_ok]
  constructor
  · rintro ⟨⟨_, left⟩, h, _⟩
    obtain ⟨deep, spelled, nodes⟩ := (validateTerm_eq_ok term surface).mp h
    exact ⟨by omega, by omega, spelled⟩
  · rintro ⟨deep, nodes, spelled⟩
    exact ⟨((), maxCanonicalNodes - term.nodes),
      (validateTerm_eq_ok term surface).mpr ⟨by omega, spelled, by omega⟩, trivial⟩

end Validate

namespace Decoder

open NpaCore.Parser

/-! ### Numbers, strings and names -/

/-- The loop reads what the loop of the certificate decoder reads. -/
theorem uvarFrom_eq_ok {turns shift value : Nat} {read input rest : Bytes} {result : UInt64} :
    uvarFrom turns shift value read input = .ok (result, rest) ↔
      Wire.Decoder.uvarFrom turns shift value read input = .ok (result, rest) := by
  induction turns generalizing shift value read input with
  | zero => simp [uvarFrom, Wire.Decoder.uvarFrom]
  | succ turns ih =>
    simp only [uvarFrom, Wire.Decoder.uvarFrom, bind_eq_ok, byte, Wire.Decoder.byte, token_eq_ok]
    refine exists_congr fun next => exists_congr fun middle => and_congr_right fun _ => ?_
    split
    · simp only [bind_eq_ok, ensure_eq_ok, pure_eq_ok]
    · split
      · simp
      · exact ih

theorem uvar_reads : Reads uvar encodeUvar fun _ => True := by
  intro input value rest
  rw [uvar, uvarFrom_eq_ok]
  exact Wire.Decoder.uvar_reads input value rest

theorem string_reads :
    Reads string encodeString fun value => value.utf8ByteSize ≤ maxCanonicalStringLen := by
  intro input value rest
  simp only [string, usize, take, bind_eq_ok, uvar_reads _ _ _, ensure_eq_ok, take_eq_ok,
    true_and, decide_eq_true_eq]
  constructor
  · rintro ⟨len, _, rfl, _, _, ⟨short, rfl⟩, bytes, middle, ⟨length, rfl⟩, h⟩
    cases found : String.fromUTF8? ⟨bytes.toArray⟩ with
    | none =>
      rw [found] at h
      simp at h
    | some text =>
      rw [found] at h
      obtain ⟨rfl, rfl⟩ := pure_eq_ok.mp h
      have same := Wire.Decoder.fromUTF8?_eq_some.mp found
      have size : text.toByteArray.size = len.toNat := by
        rw [← length, ← same, Array.length_toList, ByteArray.size_data]
      refine ⟨le_of_eq_of_le size short, ?_⟩
      rw [encodeString, size, same, UInt64.ofNat_toNat, List.append_assoc]
  · rintro ⟨short, rfl⟩
    have bound : value.toByteArray.size < 2 ^ 64 :=
      Nat.lt_of_le_of_lt short (by decide)
    refine ⟨UInt64.ofNat value.toByteArray.size, value.toByteArray.data.toList ++ rest,
      by simp [encodeString], (), _, ⟨?_, rfl⟩, value.toByteArray.data.toList, rest, ⟨?_, rfl⟩, ?_⟩
    · rw [Wire.Decoder.ofNat_toNat_of_lt bound]
      exact short
    · rw [Wire.Decoder.ofNat_toNat_of_lt bound, Array.length_toList, ByteArray.size_data]
    · rw [Wire.Decoder.fromUTF8?_eq_some.mpr rfl]
      exact pure_eq_ok.mpr ⟨rfl, rfl⟩

theorem identifier_reads (what : String) :
    Reads (identifier what) encodeString canonicalSpelling.identifier := by
  intro input value rest
  simp only [identifier, bind_eq_ok, string_reads _ _ _, ensure_eq_ok, pure_eq_ok,
    Bool.and_eq_true, Bool.not_eq_true', canonicalSpelling]
  constructor
  · rintro ⟨_, _, ⟨short, rfl⟩, _, _, ⟨spelled, rfl⟩, rfl, rfl⟩
    exact ⟨⟨short, spelled⟩, rfl⟩
  · rintro ⟨⟨short, spelled⟩, rfl⟩
    exact ⟨value, rest, ⟨short, rfl⟩, (), rest, ⟨spelled, rfl⟩, rfl, rfl⟩

theorem levelParamIdentifier_reads :
    Reads levelParamIdentifier encodeString canonicalSpelling.identifier := by
  intro input value rest
  simp only [levelParamIdentifier, bind_eq_ok, identifier_reads _ _ _ _, ensure_eq_ok,
    pure_eq_ok, Bool.not_eq_true']
  constructor
  · rintro ⟨_, _, ⟨spelled, rfl⟩, _, _, ⟨_, rfl⟩, rfl, rfl⟩
    exact ⟨spelled, rfl⟩
  · rintro ⟨spelled, rfl⟩
    -- The level operators are reserved spellings already.
    have operator : isLevelOperator value = false := by
      have reserved := spelled.2.2
      rw [isReservedSpelling, Bool.or_eq_false_iff] at reserved
      exact reserved.1
    exact ⟨value, rest, ⟨spelled, rfl⟩, (), rest, ⟨operator, rfl⟩, rfl, rfl⟩

theorem dottedNameComponent_reads :
    Reads dottedNameComponent encodeString canonicalSpelling.component := by
  intro input value rest
  simp only [dottedNameComponent, bind_eq_ok, string_reads _ _ _, ensure_eq_ok, pure_eq_ok,
    canonicalSpelling]
  constructor
  · rintro ⟨_, _, ⟨short, rfl⟩, _, _, ⟨spelled, rfl⟩, rfl, rfl⟩
    exact ⟨⟨short, spelled⟩, rfl⟩
  · rintro ⟨⟨short, spelled⟩, rfl⟩
    exact ⟨value, rest, ⟨short, rfl⟩, (), rest, ⟨spelled, rfl⟩, rfl, rfl⟩

theorem listLen_eq_ok {empty what : String} {input rest : Bytes} {count : Nat} :
    listLen empty what input = .ok (count, rest) ↔
      canonicalSpelling.len count ∧ input = encodeUvar (UInt64.ofNat count) ++ rest := by
  simp only [listLen, usize, bind_eq_ok, uvar_reads _ _ _, ensure_eq_ok, pure_eq_ok, true_and,
    decide_eq_true_eq, canonicalSpelling]
  constructor
  · rintro ⟨len, _, rfl, _, _, ⟨nonempty, rfl⟩, _, _, ⟨short, rfl⟩, rfl, rfl⟩
    exact ⟨⟨nonempty, short⟩, by simp⟩
  · rintro ⟨⟨nonempty, short⟩, rfl⟩
    have bound : count < 2 ^ 64 := Nat.lt_of_le_of_lt short (by decide)
    have same := Wire.Decoder.ofNat_toNat_of_lt bound
    exact ⟨UInt64.ofNat count, rest, rfl, (), rest, ⟨by rwa [same], rfl⟩, (), rest,
      ⟨by rwa [same], rfl⟩, same, rfl⟩

theorem name_reads : Reads name encodeNameParts fun parts =>
    canonicalSpelling.len parts.length ∧ SpelledParts canonicalSpelling parts := by
  intro input parts rest
  simp only [name, bind_eq_ok, listLen_eq_ok, identifier_reads _ _ _ _, pure_eq_ok,
    reads_collectN dottedNameComponent_reads _ _ _ _]
  constructor
  · rintro ⟨count, _, ⟨len, rfl⟩, head, _, ⟨hhead, rfl⟩, components, _, ⟨⟨hlen, all⟩, rfl⟩, rfl, rfl⟩
    have nonempty : count ≠ 0 := len.1
    have count : components.length + 1 = count := by omega
    refine ⟨⟨?_, hhead, all⟩, ?_⟩
    · rw [List.length_cons, count]
      exact len
    · simp [encodeNameParts, count]
  · rintro ⟨⟨len, spelled⟩, rfl⟩
    cases parts with
    | nil => exact absurd rfl len.1
    | cons head components =>
      exact ⟨components.length + 1, _, ⟨len, by rw [encodeNameParts, List.append_assoc]; rfl⟩, head,
        components.flatMap encodeString ++ rest, ⟨spelled.1, by simp⟩, components, rest,
        ⟨⟨by omega, spelled.2⟩, rfl⟩, rfl, rfl⟩

theorem explicitMode_reads :
    Reads explicitMode (fun mode => [encodeExplicitMode mode]) fun _ => True := by
  intro input mode rest
  simp only [explicitMode, byte, bind_eq_ok, token_eq_ok, true_and]
  constructor
  · rintro ⟨tag, middle, rfl, h⟩
    split at h
    · obtain ⟨rfl, rfl⟩ := pure_eq_ok.mp h
      rfl
    · obtain ⟨rfl, rfl⟩ := pure_eq_ok.mp h
      rfl
    · simp at h
  · rintro rfl
    cases mode with
    | false => exact ⟨0x00, rest, rfl, pure_eq_ok.mpr ⟨rfl, rfl⟩⟩
    | true => exact ⟨0x01, rest, rfl, pure_eq_ok.mpr ⟨rfl, rfl⟩⟩

/-! ### Decoders with a budget -/

variable {α β : Type}

/-- The decoder succeeds on the encodings of the valid values that the budget allows, and
on nothing else. -/
def ReadsNodes (decode : NodeParser α) (encode : α → Bytes) (nodes : α → Nat)
    (valid : α → Prop) : Prop :=
  ∀ remaining input a left rest, decode remaining input = .ok ((a, left), rest) ↔
    valid a ∧ remaining = left + nodes a ∧ input = encode a ++ rest

section Steps

variable {remaining left : Nat} {input rest : Bytes}

theorem node_bind_eq_ok {x : NodeParser α} {f : α → NodeParser β} {b : β} :
    (x >>= f) remaining input = .ok ((b, left), rest) ↔
      ∃ a budget middle, x remaining input = .ok ((a, budget), middle) ∧
        f a budget middle = .ok ((b, left), rest) := by
  change ((x remaining >>= fun result => f result.1 result.2) : Parser _ _ _) input = _ ↔ _
  simp only [bind_eq_ok, Prod.exists]

theorem node_pure_eq_ok {a b : α} :
    (pure a : NodeParser α) remaining input = .ok ((b, left), rest) ↔
      a = b ∧ remaining = left ∧ input = rest := by
  change (pure (a, remaining) : ByteParser _) input = _ ↔ _
  simp [pure_eq_ok, and_assoc]

theorem read_eq_ok {decode : ByteParser α} {a : α} :
    read decode remaining input = .ok ((a, left), rest) ↔
      remaining = left ∧ decode input = .ok (a, rest) := by
  change ((decode >>= fun a => pure (a, remaining)) : ByteParser _) input = _ ↔ _
  simp only [bind_eq_ok, pure_eq_ok, Prod.mk.injEq]
  constructor
  · rintro ⟨_, _, h, ⟨rfl, rfl⟩, rfl⟩
    exact ⟨rfl, h⟩
  · rintro ⟨rfl, h⟩
    exact ⟨a, rest, h, ⟨rfl, rfl⟩, rfl⟩

theorem decodeError_ne_ok {message : String} {result : (α × Nat) × Bytes} :
    ¬ (decodeError message : NodeParser α) remaining input = .ok result := nofun

theorem consumeNode_eq_ok :
    consumeNode remaining input = .ok ((u, left), rest) ↔
      remaining = left + 1 ∧ input = rest := by
  cases remaining with
  | zero => simp [consumeNode]
  | succ remaining => simp [consumeNode, pure_eq_ok]

/-- The first two steps of every node: it is in the budget, and it begins with a tag. -/
theorem taggedNode_eq_ok {f : UInt8 → NodeParser β} {b : β} :
    (do
      consumeNode
      let tag ← read byte
      f tag : NodeParser β) remaining input = .ok ((b, left), rest) ↔
      ∃ tag budget middle, remaining = budget + 1 ∧ input = tag :: middle ∧
        f tag budget middle = .ok ((b, left), rest) := by
  simp only [node_bind_eq_ok, consumeNode_eq_ok, read_eq_ok, byte, token_eq_ok]
  constructor
  · rintro ⟨_, budget, _, ⟨rfl, rfl⟩, tag, _, middle, ⟨rfl, rfl⟩, h⟩
    exact ⟨tag, budget, middle, rfl, rfl, h⟩
  · rintro ⟨tag, budget, middle, rfl, rfl, h⟩
    exact ⟨(), budget, _, ⟨rfl, rfl⟩, tag, budget, middle, ⟨rfl, rfl⟩, h⟩

end Steps

theorem collectNodes_reads {decode : NodeParser α} {encode : α → Bytes} {nodes : α → Nat}
    {valid : α → Prop} (reads : ReadsNodes decode encode nodes valid) (count : Nat) :
    ReadsNodes (collectNodes decode count) (fun items => items.flatMap encode)
      (fun items => (items.map nodes).sum)
      fun items => items.length = count ∧ ∀ item ∈ items, valid item := by
  induction count with
  | zero =>
    intro remaining input items left rest
    rw [collectNodes, node_pure_eq_ok]
    cases items with
    | nil => simp
    | cons item items => simp
  | succ count ih =>
    intro remaining input items left rest
    simp only [collectNodes, node_bind_eq_ok, node_pure_eq_ok, reads _ _ _ _ _, ih _ _ _ _ _]
    cases items with
    | nil => simp
    | cons item items =>
      simp only [List.cons.injEq, List.length_cons, List.mem_cons, forall_eq_or_imp,
        List.flatMap_cons, List.map_cons, List.sum_cons, List.append_assoc]
      constructor
      · rintro ⟨_, _, _, ⟨first, rfl, rfl⟩, _, _, _, ⟨⟨rfl, others⟩, rfl, rfl⟩, ⟨rfl, rfl⟩, rfl,
          rfl⟩
        exact ⟨⟨rfl, first, others⟩, by omega, rfl⟩
      · rintro ⟨⟨length, first, others⟩, rfl, rfl⟩
        exact ⟨item, left + (items.map nodes).sum, _, ⟨first, by omega, rfl⟩, items, left, rest,
          ⟨⟨by omega, others⟩, rfl, rfl⟩, ⟨rfl, rfl⟩, rfl, rfl⟩

theorem machineLevel_reads (levels : Nat) :
    ReadsNodes (machineLevel levels) encodeMachineLevel MachineLevel.nodes fun level =>
      level.height < levels ∧ level.Spelled canonicalSpelling := by
  induction levels with
  | zero =>
    intro remaining input level left rest
    simp [machineLevel, decodeError_ne_ok]
  | succ levels ih =>
    intro remaining input level left rest
    rw [machineLevel, taggedNode_eq_ok]
    constructor
    · rintro ⟨tag, budget, middle, rfl, rfl, h⟩
      split at h
      · simp only [node_bind_eq_ok, read_eq_ok, uvar_reads _ _ _, node_pure_eq_ok] at h
        obtain ⟨value, _, _, ⟨rfl, _, rfl⟩, rfl, rfl, rfl⟩ := h
        exact ⟨⟨by simp [MachineLevel.height], trivial⟩, rfl, rfl⟩
      · simp only [node_bind_eq_ok, read_eq_ok, levelParamIdentifier_reads _ _ _,
          node_pure_eq_ok] at h
        obtain ⟨name, _, _, ⟨rfl, spelled, rfl⟩, rfl, rfl, rfl⟩ := h
        exact ⟨⟨by simp [MachineLevel.height], spelled⟩, rfl, rfl⟩
      · simp only [node_bind_eq_ok, ih _ _ _ _ _, node_pure_eq_ok] at h
        obtain ⟨inner, _, _, ⟨⟨height, spelled⟩, rfl, rfl⟩, rfl, rfl, rfl⟩ := h
        exact ⟨⟨by simpa [MachineLevel.height] using height, spelled⟩, rfl, rfl⟩
      · simp only [node_bind_eq_ok, ih _ _ _ _ _, node_pure_eq_ok] at h
        obtain ⟨lhs, _, _, ⟨⟨hl, spelledl⟩, rfl, rfl⟩, rhs, _, _, ⟨⟨hr, spelledr⟩, rfl, rfl⟩, rfl,
          rfl, rfl⟩ := h
        refine ⟨⟨by simp only [MachineLevel.height]; omega, spelledl, spelledr⟩, ?_, ?_⟩
        · simp only [MachineLevel.nodes]
          omega
        · simp [encodeMachineLevel]
      · simp only [node_bind_eq_ok, ih _ _ _ _ _, node_pure_eq_ok] at h
        obtain ⟨lhs, _, _, ⟨⟨hl, spelledl⟩, rfl, rfl⟩, rhs, _, _, ⟨⟨hr, spelledr⟩, rfl, rfl⟩, rfl,
          rfl, rfl⟩ := h
        refine ⟨⟨by simp only [MachineLevel.height]; omega, spelledl, spelledr⟩, ?_, ?_⟩
        · simp only [MachineLevel.nodes]
          omega
        · simp [encodeMachineLevel]
      · exact absurd h decodeError_ne_ok
    · rintro ⟨⟨height, spelled⟩, rfl, rfl⟩
      cases level with
      | nat value =>
        refine ⟨0x00, left, _, rfl, rfl, ?_⟩
        simp [node_bind_eq_ok, read_eq_ok, uvar_reads _ _ _, node_pure_eq_ok]
      | param name =>
        refine ⟨0x01, left, _, rfl, rfl, ?_⟩
        simp only [node_bind_eq_ok, read_eq_ok, levelParamIdentifier_reads _ _ _,
          node_pure_eq_ok]
        exact ⟨name, left, rest, ⟨rfl, spelled, rfl⟩, rfl, rfl, rfl⟩
      | succ inner =>
        simp only [MachineLevel.height, Nat.add_lt_add_iff_right] at height
        refine ⟨0x02, left + inner.nodes, _, rfl, rfl, ?_⟩
        simp only [node_bind_eq_ok, ih _ _ _ _ _, node_pure_eq_ok]
        exact ⟨inner, left, rest, ⟨⟨height, spelled⟩, rfl, rfl⟩, rfl, rfl, rfl⟩
      | max lhs rhs =>
        simp only [MachineLevel.height] at height
        refine ⟨0x03, left + rhs.nodes + lhs.nodes, encodeMachineLevel lhs ++
          (encodeMachineLevel rhs ++ rest), ?_, by simp [encodeMachineLevel], ?_⟩
        · simp only [MachineLevel.nodes]
          omega
        · simp only [node_bind_eq_ok, ih _ _ _ _ _, node_pure_eq_ok]
          exact ⟨lhs, _, _, ⟨⟨by omega, spelled.1⟩, rfl, rfl⟩, rhs, left, rest,
            ⟨⟨by omega, spelled.2⟩, rfl, rfl⟩, rfl, rfl, rfl⟩
      | imax lhs rhs =>
        simp only [MachineLevel.height] at height
        refine ⟨0x04, left + rhs.nodes + lhs.nodes, encodeMachineLevel lhs ++
          (encodeMachineLevel rhs ++ rest), ?_, by simp [encodeMachineLevel], ?_⟩
        · simp only [MachineLevel.nodes]
          omega
        · simp only [node_bind_eq_ok, ih _ _ _ _ _, node_pure_eq_ok]
          exact ⟨lhs, _, _, ⟨⟨by omega, spelled.1⟩, rfl, rfl⟩, rhs, left, rest,
            ⟨⟨by omega, spelled.2⟩, rfl, rfl⟩, rfl, rfl, rfl⟩

/-! ### Terms -/

def argsHeight : Option (List MachineLevel) → Nat
  | none => 0
  | some levels => levelsHeight levels

def argsNodes : Option (List MachineLevel) → Nat
  | none => 0
  | some levels => levelsNodes levels

theorem identHeight (name : MachineName) (args : Option (List MachineLevel)) (mode : Bool) :
    (MachineTerm.ident name args mode).height = argsHeight args := by
  cases args <;> rw [MachineTerm.height, argsHeight]

theorem identNodes (name : MachineName) (args : Option (List MachineLevel)) (mode : Bool) :
    (MachineTerm.ident name args mode).nodes = argsNodes args + 1 := by
  cases args <;> rw [MachineTerm.nodes, argsNodes]

theorem levelsHeight_le {levels : List MachineLevel} {height : Nat} :
    levelsHeight levels ≤ height ↔ ∀ level ∈ levels, level.height < height := by
  induction levels with
  | nil => simp [levelsHeight]
  | cons level levels ih =>
    simp only [levelsHeight, List.mem_cons, forall_eq_or_imp, ← ih]
    omega

theorem optionLevels_reads (levels : Nat) :
    ReadsNodes (optionLevels levels) encodeOptionLevels argsNodes fun args =>
      argsHeight args ≤ levels ∧ SpelledArgs canonicalSpelling args := by
  intro remaining input args left rest
  simp only [optionLevels, node_bind_eq_ok, read_eq_ok, byte, token_eq_ok]
  have list (count : Nat) := collectNodes_reads (machineLevel_reads levels) count
  constructor
  · rintro ⟨tag, _, middle, ⟨rfl, rfl⟩, h⟩
    split at h
    · obtain ⟨rfl, rfl, rfl⟩ := node_pure_eq_ok.mp h
      exact ⟨⟨Nat.zero_le _, trivial⟩, rfl, rfl⟩
    · simp only [node_bind_eq_ok, read_eq_ok, listLen_eq_ok, list _ _ _ _ _ _,
        node_pure_eq_ok] at h
      obtain ⟨count, _, _, ⟨rfl, len, rfl⟩, items, _, _, ⟨⟨rfl, all⟩, rfl, rfl⟩, rfl, rfl, rfl⟩ := h
      refine ⟨⟨levelsHeight_le.mpr fun level mem => (all level mem).1, len,
        fun level mem => (all level mem).2⟩, rfl, ?_⟩
      simp [encodeOptionLevels]
    · exact absurd h decodeError_ne_ok
  · rintro ⟨⟨height, spelled⟩, rfl, rfl⟩
    cases args with
    | none => exact ⟨0x00, left, rest, ⟨rfl, rfl⟩, node_pure_eq_ok.mpr ⟨rfl, rfl, rfl⟩⟩
    | some items =>
      refine ⟨0x01, _, encodeUvar (UInt64.ofNat items.length) ++
        (items.flatMap encodeMachineLevel ++ rest), ⟨rfl, by simp [encodeOptionLevels]⟩, ?_⟩
      simp only [node_bind_eq_ok, read_eq_ok, listLen_eq_ok, list _ _ _ _ _ _, node_pure_eq_ok]
      exact ⟨items.length, _, _, ⟨rfl, spelled.1, rfl⟩, items, left, rest,
        ⟨⟨rfl, fun level mem => ⟨levelsHeight_le.mp height level mem, spelled.2 level mem⟩⟩, rfl,
          rfl⟩, rfl, rfl, rfl⟩

def encodeBinder : MachineBinder → Bytes
  | .mk name ty => encodeString name ++ encodeTerm ty

def binderNodes : MachineBinder → Nat
  | .mk _ ty => ty.nodes

theorem encodeBinderList_eq (binders : List MachineBinder) :
    encodeBinderList binders = binders.flatMap encodeBinder := by
  induction binders with
  | nil => rw [encodeBinderList, List.flatMap_nil]
  | cons binder binders ih =>
    cases binder
    rw [encodeBinderList, ih, List.flatMap_cons, encodeBinder]

theorem bindersNodes_eq (binders : List MachineBinder) :
    bindersNodes binders = (binders.map binderNodes).sum := by
  induction binders with
  | nil => rw [bindersNodes, List.map_nil, List.sum_nil]
  | cons binder binders ih =>
    cases binder
    rw [bindersNodes, ih, List.map_cons, List.sum_cons, binderNodes]

/-- A binder that the decoder accepts with so many levels for its type. -/
def AcceptedBinder (levels : Nat) : MachineBinder → Prop
  | .mk name ty =>
    canonicalSpelling.identifier name ∧ ty.height < levels ∧ ty.Spelled canonicalSpelling

theorem acceptedBinders_iff {levels : Nat} (binders : List MachineBinder) :
    (∀ binder ∈ binders, AcceptedBinder levels binder) ↔
      bindersHeight binders ≤ levels ∧ SpelledBinders canonicalSpelling binders := by
  induction binders with
  | nil => simp [bindersHeight, SpelledBinders]
  | cons binder binders ih =>
    cases binder with
    | mk name ty =>
      rw [List.forall_mem_cons, ih]
      simp only [AcceptedBinder, bindersHeight, SpelledBinders]
      constructor
      · rintro ⟨⟨named, height, spelled⟩, heights, others⟩
        exact ⟨by omega, named, spelled, others⟩
      · rintro ⟨heights, named, spelled, others⟩
        exact ⟨⟨named, by omega, spelled⟩, by omega, others⟩

theorem binders_reads {levels : Nat} {decode : NodeParser MachineTerm}
    (reads : ReadsNodes decode encodeTerm MachineTerm.nodes fun term =>
      term.height < levels ∧ term.Spelled canonicalSpelling) :
    ReadsNodes (binders decode)
      (fun items => encodeUvar (UInt64.ofNat items.length) ++ encodeBinderList items) bindersNodes
      fun items => canonicalSpelling.len items.length ∧ bindersHeight items ≤ levels ∧
        SpelledBinders canonicalSpelling items := by
  have one : ReadsNodes (binder decode) encodeBinder binderNodes (AcceptedBinder levels) := by
    intro remaining input item left rest
    simp only [binder, node_bind_eq_ok, read_eq_ok, identifier_reads _ _ _ _, reads _ _ _ _ _,
      node_pure_eq_ok]
    constructor
    · rintro ⟨name, _, _, ⟨rfl, named, rfl⟩, ty, _, _, ⟨⟨height, spelled⟩, rfl, rfl⟩, rfl, rfl, rfl⟩
      exact ⟨⟨named, height, spelled⟩, rfl, by simp [encodeBinder]⟩
    · rintro ⟨accepted, rfl, rfl⟩
      cases item with
      | mk name ty =>
        exact ⟨name, _, encodeTerm ty ++ rest, ⟨rfl, accepted.1, by simp [encodeBinder]⟩, ty, left,
          rest, ⟨accepted.2, rfl, rfl⟩, rfl, rfl, rfl⟩
  intro remaining input items left rest
  simp only [binders, node_bind_eq_ok, read_eq_ok, listLen_eq_ok,
    collectNodes_reads one _ _ _ _ _ _, acceptedBinders_iff, ← bindersNodes_eq,
    ← encodeBinderList_eq]
  constructor
  · rintro ⟨count, _, _, ⟨rfl, len, rfl⟩, ⟨rfl, accepted⟩, rfl, rfl⟩
    exact ⟨⟨len, accepted⟩, rfl, by simp⟩
  · rintro ⟨⟨len, accepted⟩, rfl, rfl⟩
    exact ⟨items.length, _, _, ⟨rfl, len, by rw [List.append_assoc]⟩, ⟨rfl, accepted⟩, rfl, rfl⟩

theorem term_reads (levels : Nat) :
    ReadsNodes (term levels) encodeTerm MachineTerm.nodes fun term =>
      term.height < levels ∧ term.Spelled canonicalSpelling := by
  induction levels with
  | zero =>
    intro remaining input term left rest
    simp [Decoder.term, decodeError_ne_ok]
  | succ levels ih =>
    intro remaining input term left rest
    have binders := binders_reads ih
    rw [Decoder.term, taggedNode_eq_ok]
    constructor
    · rintro ⟨tag, budget, middle, rfl, rfl, h⟩
      -- one case for each tag; the tag of a local, and any other, is refused
      split at h
      · simp only [node_bind_eq_ok, read_eq_ok, name_reads _ _ _, explicitMode_reads _ _ _,
          optionLevels_reads levels _ _ _ _ _, node_pure_eq_ok] at h
        obtain ⟨parts, _, _, ⟨rfl, ⟨len, spelled⟩, rfl⟩, mode, _, _, ⟨rfl, _, rfl⟩, args, _, _,
          ⟨⟨height, spelledArgs⟩, rfl, rfl⟩, rfl, rfl, rfl⟩ := h
        refine ⟨⟨?_, len, spelled, spelledArgs⟩, ?_, by simp [encodeTerm]⟩
        · rw [identHeight]
          omega
        · rw [identNodes]
          rfl
      · exact absurd h decodeError_ne_ok
      · simp only [node_bind_eq_ok, machineLevel_reads levels _ _ _ _ _, node_pure_eq_ok] at h
        obtain ⟨level, _, _, ⟨⟨height, spelled⟩, rfl, rfl⟩, rfl, rfl, rfl⟩ := h
        exact ⟨⟨by simpa [MachineTerm.height] using height, spelled⟩, rfl, rfl⟩
      · simp only [node_bind_eq_ok, ih _ _ _ _ _, node_pure_eq_ok] at h
        obtain ⟨lhs, _, _, ⟨⟨hl, spelledl⟩, rfl, rfl⟩, rhs, _, _, ⟨⟨hr, spelledr⟩, rfl, rfl⟩, rfl,
          rfl, rfl⟩ := h
        refine ⟨⟨by simp only [MachineTerm.height]; omega, spelledl, spelledr⟩, ?_, ?_⟩
        · simp only [MachineTerm.nodes]
          omega
        · simp [encodeTerm]
      · simp only [node_bind_eq_ok, binders _ _ _ _ _, ih _ _ _ _ _, node_pure_eq_ok] at h
        obtain ⟨items, _, _, ⟨⟨len, hbs, spelledbs⟩, rfl, rfl⟩, body, _, _,
          ⟨⟨hb, spelledb⟩, rfl, rfl⟩, rfl, rfl, rfl⟩ := h
        refine ⟨⟨by simp only [MachineTerm.height]; omega, len, spelledbs, spelledb⟩, ?_, ?_⟩
        · simp only [MachineTerm.nodes]
          omega
        · simp [encodeTerm]
      · simp only [node_bind_eq_ok, binders _ _ _ _ _, ih _ _ _ _ _, node_pure_eq_ok] at h
        obtain ⟨items, _, _, ⟨⟨len, hbs, spelledbs⟩, rfl, rfl⟩, body, _, _,
          ⟨⟨hb, spelledb⟩, rfl, rfl⟩, rfl, rfl, rfl⟩ := h
        refine ⟨⟨by simp only [MachineTerm.height]; omega, len, spelledbs, spelledb⟩, ?_, ?_⟩
        · simp only [MachineTerm.nodes]
          omega
        · simp [encodeTerm]
      · exact absurd h decodeError_ne_ok
      · simp only [node_bind_eq_ok, ih _ _ _ _ _, node_pure_eq_ok] at h
        obtain ⟨lhs, _, _, ⟨⟨hl, spelledl⟩, rfl, rfl⟩, rhs, _, _, ⟨⟨hr, spelledr⟩, rfl, rfl⟩, rfl,
          rfl, rfl⟩ := h
        refine ⟨⟨by simp only [MachineTerm.height]; omega, spelledl, spelledr⟩, ?_, ?_⟩
        · simp only [MachineTerm.nodes]
          omega
        · simp [encodeTerm]
      · simp only [node_bind_eq_ok, machineLevel_reads levels _ _ _ _ _, node_pure_eq_ok] at h
        obtain ⟨level, _, _, ⟨⟨height, spelled⟩, rfl, rfl⟩, rfl, rfl, rfl⟩ := h
        exact ⟨⟨by simpa [MachineTerm.height] using height, spelled⟩, rfl, rfl⟩
      · obtain ⟨rfl, rfl, rfl⟩ := node_pure_eq_ok.mp h
        exact ⟨⟨by simp [MachineTerm.height], trivial⟩, rfl, rfl⟩
      · exact absurd h decodeError_ne_ok
    · -- every form has a tag of its own, so what is encoded is read in the case of its tag
      rintro ⟨⟨height, spelled⟩, rfl, rfl⟩
      cases term with
      | ident name args mode =>
        rw [identHeight] at height
        refine ⟨0x00, left + argsNodes args, encodeNameParts name.parts ++ (encodeExplicitMode mode ::
          (encodeOptionLevels args ++ rest)), by rw [identNodes]; rfl, by simp [encodeTerm], ?_⟩
        simp only [node_bind_eq_ok, read_eq_ok, name_reads _ _ _, explicitMode_reads _ _ _,
          optionLevels_reads levels _ _ _ _ _, node_pure_eq_ok]
        exact ⟨name.parts, _, _, ⟨rfl, ⟨spelled.1, spelled.2.1⟩, rfl⟩, mode, _, _,
          ⟨rfl, trivial, rfl⟩, args, left, rest, ⟨⟨by omega, spelled.2.2⟩, rfl, rfl⟩, rfl, rfl,
          rfl⟩
      | «local» name => exact spelled.elim
      | prop => exact ⟨0x09, left, rest, rfl, rfl, node_pure_eq_ok.mpr ⟨rfl, rfl, rfl⟩⟩
      | type level =>
        simp only [MachineTerm.height, Nat.add_lt_add_iff_right] at height
        refine ⟨0x08, left + level.nodes, _, rfl, rfl, ?_⟩
        simp only [node_bind_eq_ok, machineLevel_reads levels _ _ _ _ _, node_pure_eq_ok]
        exact ⟨level, left, rest, ⟨⟨height, spelled⟩, rfl, rfl⟩, rfl, rfl, rfl⟩
      | sort level =>
        simp only [MachineTerm.height, Nat.add_lt_add_iff_right] at height
        refine ⟨0x02, left + level.nodes, _, rfl, rfl, ?_⟩
        simp only [node_bind_eq_ok, machineLevel_reads levels _ _ _ _ _, node_pure_eq_ok]
        exact ⟨level, left, rest, ⟨⟨height, spelled⟩, rfl, rfl⟩, rfl, rfl, rfl⟩
      | app lhs rhs =>
        simp only [MachineTerm.height] at height
        refine ⟨0x03, left + rhs.nodes + lhs.nodes, encodeTerm lhs ++ (encodeTerm rhs ++ rest), ?_,
          by simp [encodeTerm], ?_⟩
        · simp only [MachineTerm.nodes]
          omega
        · simp only [node_bind_eq_ok, ih _ _ _ _ _, node_pure_eq_ok]
          exact ⟨lhs, _, _, ⟨⟨by omega, spelled.1⟩, rfl, rfl⟩, rhs, left, rest,
            ⟨⟨by omega, spelled.2⟩, rfl, rfl⟩, rfl, rfl, rfl⟩
      | lam items body =>
        simp only [MachineTerm.height] at height
        refine ⟨0x04, left + body.nodes + bindersNodes items,
          (encodeUvar (UInt64.ofNat items.length) ++ encodeBinderList items) ++
            (encodeTerm body ++ rest), ?_, by simp [encodeTerm], ?_⟩
        · simp only [MachineTerm.nodes]
          omega
        · simp only [node_bind_eq_ok, binders _ _ _ _ _, ih _ _ _ _ _, node_pure_eq_ok]
          exact ⟨items, _, _, ⟨⟨spelled.1, by omega, spelled.2.1⟩, rfl, rfl⟩, body, left, rest,
            ⟨⟨by omega, spelled.2.2⟩, rfl, rfl⟩, rfl, rfl, rfl⟩
      | pi items body =>
        simp only [MachineTerm.height] at height
        refine ⟨0x05, left + body.nodes + bindersNodes items,
          (encodeUvar (UInt64.ofNat items.length) ++ encodeBinderList items) ++
            (encodeTerm body ++ rest), ?_, by simp [encodeTerm], ?_⟩
        · simp only [MachineTerm.nodes]
          omega
        · simp only [node_bind_eq_ok, binders _ _ _ _ _, ih _ _ _ _ _, node_pure_eq_ok]
          exact ⟨items, _, _, ⟨⟨spelled.1, by omega, spelled.2.1⟩, rfl, rfl⟩, body, left, rest,
            ⟨⟨by omega, spelled.2.2⟩, rfl, rfl⟩, rfl, rfl, rfl⟩
      | annot lhs rhs =>
        simp only [MachineTerm.height] at height
        refine ⟨0x07, left + rhs.nodes + lhs.nodes, encodeTerm lhs ++ (encodeTerm rhs ++ rest), ?_,
          by simp [encodeTerm], ?_⟩
        · simp only [MachineTerm.nodes]
          omega
        · simp only [node_bind_eq_ok, ih _ _ _ _ _, node_pure_eq_ok]
          exact ⟨lhs, _, _, ⟨⟨by omega, spelled.1⟩, rfl, rfl⟩, rhs, left, rest,
            ⟨⟨by omega, spelled.2⟩, rfl, rfl⟩, rfl, rfl, rfl⟩

end Decoder

theorem termSourceTag_size : termSourceTag.utf8ByteSize ≤ maxCanonicalStringLen := by
  decide +kernel

theorem decodeMachineTermSourceCanonical_eq_ok {canonicalBytes : Bytes} {term : MachineTerm} :
    decodeMachineTermSourceCanonical canonicalBytes = .ok term ↔
      (term.height ≤ maxCanonicalDepth ∧ term.nodes ≤ maxCanonicalNodes ∧
        term.Spelled canonicalSpelling) ∧ canonicalBytes = canonicalBytesOf term := by
  simp only [decodeMachineTermSourceCanonical, Result.bind_eq_ok, Result.ensure_eq_ok,
    Prod.exists, Decoder.string_reads _ _ _, Decoder.term_reads _ _ _ _ _ _, decide_eq_true_eq,
    canonicalBytesOf]
  constructor
  · rintro ⟨tag, rest, ⟨_, rfl⟩, _, rfl, found, left, tail, ⟨⟨height, spelled⟩, nodes, rfl⟩, _,
      trailing, h⟩
    cases h
    rw [List.isEmpty_iff] at trailing
    subst trailing
    exact ⟨⟨by omega, by omega, spelled⟩, by simp⟩
  · rintro ⟨⟨height, nodes, spelled⟩, rfl⟩
    exact ⟨termSourceTag, encodeTerm term, ⟨termSourceTag_size, rfl⟩, (), rfl, term,
      maxCanonicalNodes - term.nodes, [], ⟨⟨by omega, spelled⟩, by omega, by simp⟩, (), rfl, rfl⟩

end NpaCore.Frontend
