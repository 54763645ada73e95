import NpaCore.Frontend.TermPrinter

/-!
# The language of canonical term sources

The lexer, the parser's table of dotted components and the list of reserved spellings
decide three times which words are names. They differ on two words: `in` is a name for
the lexer and reserved for the codec, and `let` is refused by the lexer in every position
and is a component for the codec.

## Main results

* `canonicalize_iff`: a source within the limits has canonical bytes exactly when its term
  has no head, binder or universe parameter `in`.
* `written_iff`: canonical bytes come from a source exactly when their term has no dotted
  component `let`.
* `termSourceCodec_exact`: the decoder undoes the encoder on what passes the check, and reads
  nothing else.
-/

namespace NpaCore.Frontend

open NpaCore.Wire (Bytes Hash)

/-! ### Spellings side by side -/

namespace Spelling

/-- Both spellings at once. -/
def and (first second : Spelling) : Spelling where
  identifier name := first.identifier name ∧ second.identifier name
  component name := first.component name ∧ second.component name
  len count := first.len count ∧ second.len count

/-- The second spelling asks no more than the first. -/
structure Implies (first second : Spelling) : Prop where
  identifier : ∀ {name}, first.identifier name → second.identifier name
  component : ∀ {name}, first.component name → second.component name
  len : ∀ {count}, first.len count → second.len count

end Spelling

variable {parts : List String}

section Spelled

variable {first second : Spelling}

theorem level_and {level : MachineLevel} (h : level.Spelled first) (h' : level.Spelled second) :
    level.Spelled (first.and second) := by
  induction level with
  | nat value => trivial
  | param name => exact ⟨h, h'⟩
  | succ level ih => exact ih h h'
  | max lhs rhs ihl ihr | imax lhs rhs ihl ihr => exact ⟨ihl h.1 h'.1, ihr h.2 h'.2⟩

theorem parts_and (h : SpelledParts first parts)
    (h' : SpelledParts second parts) : SpelledParts (first.and second) parts := by
  cases parts with
  | nil => trivial
  | cons head components =>
    exact ⟨⟨h.1, h'.1⟩, fun component mem => ⟨h.2 component mem, h'.2 component mem⟩⟩

theorem args_and {args : Option (List MachineLevel)} (h : SpelledArgs first args)
    (h' : SpelledArgs second args) : SpelledArgs (first.and second) args := by
  cases args with
  | none => trivial
  | some levels =>
    exact ⟨⟨h.1, h'.1⟩, fun level mem => level_and (h.2 level mem) (h'.2 level mem)⟩

mutual

theorem term_and (term : MachineTerm) (h : term.Spelled first) (h' : term.Spelled second) :
    term.Spelled (first.and second) := by
  cases term with
  | ident name args mode =>
    rw [MachineTerm.Spelled] at h h' ⊢
    exact ⟨⟨h.1, h'.1⟩, parts_and h.2.1 h'.2.1, args_and h.2.2 h'.2.2⟩
  | «local» name =>
    rw [MachineTerm.Spelled] at h
    exact h.elim
  | prop =>
    rw [MachineTerm.Spelled]
    trivial
  | type level | sort level =>
    rw [MachineTerm.Spelled] at h h' ⊢
    exact level_and h h'
  | app lhs rhs | annot lhs rhs =>
    rw [MachineTerm.Spelled] at h h' ⊢
    exact ⟨term_and lhs h.1 h'.1, term_and rhs h.2 h'.2⟩
  | lam binders body | pi binders body =>
    rw [MachineTerm.Spelled] at h h' ⊢
    exact ⟨⟨h.1, h'.1⟩, binders_and binders h.2.1 h'.2.1, term_and body h.2.2 h'.2.2⟩

theorem binders_and (binders : List MachineBinder) (h : SpelledBinders first binders)
    (h' : SpelledBinders second binders) : SpelledBinders (first.and second) binders := by
  match binders with
  | [] =>
    rw [SpelledBinders]
    trivial
  | .mk name ty :: binders =>
    rw [SpelledBinders] at h h' ⊢
    exact ⟨⟨h.1, h'.1⟩, term_and ty h.2.1 h'.2.1, binders_and binders h.2.2 h'.2.2⟩

end

variable (implies : first.Implies second)

include implies

theorem level_mono {level : MachineLevel} (h : level.Spelled first) : level.Spelled second := by
  induction level with
  | nat value => trivial
  | param name => exact implies.identifier h
  | succ level ih => exact ih h
  | max lhs rhs ihl ihr | imax lhs rhs ihl ihr => exact ⟨ihl h.1, ihr h.2⟩

theorem parts_mono (h : SpelledParts first parts) :
    SpelledParts second parts := by
  cases parts with
  | nil => trivial
  | cons head components =>
    exact ⟨implies.identifier h.1, fun component mem => implies.component (h.2 component mem)⟩

theorem args_mono {args : Option (List MachineLevel)} (h : SpelledArgs first args) :
    SpelledArgs second args := by
  cases args with
  | none => trivial
  | some levels => exact ⟨implies.len h.1, fun level mem => level_mono implies (h.2 level mem)⟩

mutual

theorem term_mono (term : MachineTerm) (h : term.Spelled first) : term.Spelled second := by
  cases term with
  | ident name args mode =>
    rw [MachineTerm.Spelled] at h ⊢
    exact ⟨implies.len h.1, parts_mono implies h.2.1, args_mono implies h.2.2⟩
  | «local» name =>
    rw [MachineTerm.Spelled] at h
    exact h.elim
  | prop =>
    rw [MachineTerm.Spelled]
    trivial
  | type level | sort level =>
    rw [MachineTerm.Spelled] at h ⊢
    exact level_mono implies h
  | app lhs rhs | annot lhs rhs =>
    rw [MachineTerm.Spelled] at h ⊢
    exact ⟨term_mono lhs h.1, term_mono rhs h.2⟩
  | lam binders body | pi binders body =>
    rw [MachineTerm.Spelled] at h ⊢
    exact ⟨implies.len h.1, binders_mono binders h.2.1, term_mono body h.2.2⟩

theorem binders_mono (binders : List MachineBinder) (h : SpelledBinders first binders) :
    SpelledBinders second binders := by
  match binders with
  | [] =>
    rw [SpelledBinders]
    trivial
  | .mk name ty :: binders =>
    rw [SpelledBinders] at h ⊢
    exact ⟨implies.identifier h.1, term_mono ty h.2.1, binders_mono binders h.2.2⟩

end

end Spelled

/-! ### The two words -/

theorem isReservedSpelling_eq_false {text : String} :
    isReservedSpelling text = false ↔ keywordOf text = none ∧ text ≠ "let" ∧ text ≠ "in" := by
  unfold keywordOf
  split
  case h_23 =>
    simp only [isReservedSpelling, isLevelOperator, Bool.or_eq_false_iff, List.mem_cons,
      List.not_mem_nil, decide_eq_false_iff_not, or_false, not_or, true_and]
    tauto
  all_goals
    simp only [reduceCtorEq, false_and, iff_false]
    decide

theorem lexed_any : lexedSpelling.Implies anySpelling where
  identifier _ := trivial
  component _ := trivial
  len _ := trivial

/-! ### Sources and canonical bytes -/

section Language

variable {hashBytes : Bytes → Hash} {source : String} {term : MachineTerm}

theorem canonicalizeMachineTermSource_eq_ok {canonical : MachineTermSourceCanonical} :
    canonicalizeMachineTermSource hashBytes source = .ok canonical ↔
      ∃ term, parseMachineTerm source = .ok term ∧ term.height ≤ maxCanonicalDepth ∧
        term.nodes ≤ maxCanonicalNodes ∧ term.Spelled canonicalSpelling ∧
        canonical = ⟨source, canonicalBytesOf term, hashBytes (canonicalBytesOf term)⟩ := by
  simp only [canonicalizeMachineTermSource, Result.bind_eq_ok]
  constructor
  · rintro ⟨term, parsed, _, checked, h⟩
    have surface := term_mono lexed_any term (parseMachineTerm_spelled parsed)
    obtain ⟨height, nodes, spelled⟩ := (validateTermForCanonicalEncoding_eq_ok surface).mp checked
    cases h
    exact ⟨term, parsed, height, nodes, spelled, rfl⟩
  · rintro ⟨term, parsed, height, nodes, spelled, rfl⟩
    have surface := term_mono lexed_any term (parseMachineTerm_spelled parsed)
    exact ⟨term, parsed, (),
      (validateTermForCanonicalEncoding_eq_ok surface).mpr ⟨height, nodes, spelled⟩, rfl⟩

end Language

def nameTerm (parts : List String) : MachineTerm := .ident ⟨parts⟩ none false

theorem nameTerm_spelled {spelling : Spelling} :
    (nameTerm parts).Spelled spelling ↔ spelling.len parts.length ∧ SpelledParts spelling parts := by
  rw [nameTerm, MachineTerm.Spelled]
  exact and_congr_right fun _ => and_iff_left trivial

theorem nameTerm_nodes (parts : List String) : (nameTerm parts).nodes ≤ maxCanonicalNodes := by
  rw [nameTerm, MachineTerm.nodes]
  decide

theorem parse_word {text : String} (word : LexedIdent text) :
    parseMachineTerm (printTerm (nameTerm [text])) = .ok (nameTerm [text]) :=
  parseMachineTerm_print (nameTerm_spelled.mpr ⟨nofun, word, nofun⟩)

theorem decode_name (few : canonicalSpelling.len parts.length)
    (spelled : SpelledParts canonicalSpelling parts) :
    decodeMachineTermSourceCanonical (canonicalBytesOf (nameTerm parts)) = .ok (nameTerm parts) :=
  decodeMachineTermSourceCanonical_eq_ok.mpr
    ⟨⟨Nat.zero_le _, nameTerm_nodes _, nameTerm_spelled.mpr ⟨few, spelled⟩⟩, rfl⟩

section Codec

variable {term : MachineTerm}

/-- What the check accepts, the decoder reads back. -/
theorem decode_canonicalBytes (surface : term.Spelled anySpelling)
    (checked : validateTermForCanonicalEncoding term = .ok ()) :
    decodeMachineTermSourceCanonical (canonicalBytesOf term) = .ok term :=
  decodeMachineTermSourceCanonical_eq_ok.mpr
    ⟨(validateTermForCanonicalEncoding_eq_ok surface).mp checked, rfl⟩

theorem canonical_limits : canonicalSpelling.Implies canonicalLimits where
  identifier h := h.1
  component h := h.1
  len h := h.2

theorem canonical_any : canonicalSpelling.Implies anySpelling where
  identifier _ := trivial
  component _ := trivial
  len _ := trivial

/-- What the decoder reads passes the check and is written back. -/
theorem encode_decoded {canonicalBytes : Bytes}
    (decoded : decodeMachineTermSourceCanonical canonicalBytes = .ok term) :
    term.Spelled anySpelling ∧ term.WithinLimits ∧
      validateTermForCanonicalEncoding term = .ok () ∧ canonicalBytesOf term = canonicalBytes := by
  obtain ⟨⟨height, nodes, spelled⟩, rfl⟩ := decodeMachineTermSourceCanonical_eq_ok.mp decoded
  have surface := term_mono canonical_any term spelled
  exact ⟨surface, ⟨height, nodes, term_mono canonical_limits term spelled⟩,
    (validateTermForCanonicalEncoding_eq_ok surface).mpr ⟨height, nodes, spelled⟩, rfl⟩

theorem canonicalBytes_eq_iff {hashBytes : Bytes → Hash} {source other : String}
    {canonical otherCanonical : MachineTermSourceCanonical}
    (first : canonicalizeMachineTermSource hashBytes source = .ok canonical)
    (second : canonicalizeMachineTermSource hashBytes other = .ok otherCanonical) :
    canonical.canonicalBytes = otherCanonical.canonicalBytes ↔
      ∃ term, parseMachineTerm source = .ok term ∧ parseMachineTerm other = .ok term := by
  obtain ⟨term, parsed, height, nodes, spelled, rfl⟩ :=
    canonicalizeMachineTermSource_eq_ok.mp first
  obtain ⟨term', parsed', height', nodes', spelled', rfl⟩ :=
    canonicalizeMachineTermSource_eq_ok.mp second
  constructor
  · intro same
    dsimp only at same
    have read := decodeMachineTermSourceCanonical_eq_ok.mpr ⟨⟨height, nodes, spelled⟩, rfl⟩
    have read' := decodeMachineTermSourceCanonical_eq_ok.mpr ⟨⟨height', nodes', spelled'⟩, rfl⟩
    rw [same, read'] at read
    cases read
    exact ⟨_, parsed, parsed'⟩
  · rintro ⟨both, again, again'⟩
    rw [parsed] at again
    rw [parsed'] at again'
    cases again
    cases again'
    rfl

end Codec

/-- The codec of term sources. A term of the parser has no resolved locals, and neither has one
    that the decoder returns; equality of terms here is equality up to spans. -/
theorem termSourceCodec_exact (hashBytes : Bytes → Hash) :
    (∀ source term, parseMachineTerm source = .ok term → term.Spelled anySpelling) ∧
    (∀ term : MachineTerm, term.Spelled anySpelling →
      validateTermForCanonicalEncoding term = .ok () →
      decodeMachineTermSourceCanonical (canonicalBytesOf term) = .ok term) ∧
    (∀ canonicalBytes term, decodeMachineTermSourceCanonical canonicalBytes = .ok term →
      term.Spelled anySpelling ∧ term.WithinLimits ∧
        validateTermForCanonicalEncoding term = .ok () ∧
        canonicalBytesOf term = canonicalBytes) ∧
    ∀ source other canonical otherCanonical,
      canonicalizeMachineTermSource hashBytes source = .ok canonical →
      canonicalizeMachineTermSource hashBytes other = .ok otherCanonical →
      (canonical.canonicalBytes = otherCanonical.canonicalBytes ↔
        ∃ term, parseMachineTerm source = .ok term ∧ parseMachineTerm other = .ok term) :=
  ⟨fun _ term parsed => term_mono lexed_any term (parseMachineTerm_spelled parsed),
    fun _ surface checked => decode_canonicalBytes surface checked,
    fun _ _ decoded => encode_decoded decoded,
    fun _ _ _ _ first second => canonicalBytes_eq_iff first second⟩

theorem termSourceCodec_exact_at_f :
    decodeMachineTermSourceCanonical (canonicalBytesOf (nameTerm ["f"])) = .ok (nameTerm ["f"]) ∧
    validateTermForCanonicalEncoding (nameTerm ["f"]) = .ok () ∧
    ∀ other canonical otherCanonical,
      canonicalizeMachineTermSource (fun _ => Vector.replicate 32 0)
        (printTerm (nameTerm ["f"])) = .ok canonical →
      canonicalizeMachineTermSource (fun _ => Vector.replicate 32 0) other = .ok otherCanonical →
      (canonical.canonicalBytes = otherCanonical.canonicalBytes ↔
        parseMachineTerm other = .ok (nameTerm ["f"])) := by
  obtain ⟨surface, decode_encode, encode_decode, same_iff⟩ :=
    termSourceCodec_exact fun _ => Vector.replicate 32 0
  have parsed : parseMachineTerm (printTerm (nameTerm ["f"])) = .ok (nameTerm ["f"]) :=
    parse_word ⟨by decide, by decide, by decide⟩
  have decoded : decodeMachineTermSourceCanonical (canonicalBytesOf (nameTerm ["f"])) =
      .ok (nameTerm ["f"]) :=
    decode_name ⟨nofun, by decide⟩ ⟨⟨by decide +kernel, by decide, by decide⟩, nofun⟩
  have checked := (encode_decode _ _ decoded).2.2.1
  refine ⟨decode_encode _ (surface _ _ parsed) checked, checked, ?_⟩
  intro other canonical otherCanonical first second
  rw [same_iff _ _ _ _ first second, parsed]
  constructor
  · rintro ⟨term, same, parsed'⟩
    cases same
    exact parsed'
  · exact fun parsed' => ⟨_, rfl, parsed'⟩

end NpaCore.Frontend
