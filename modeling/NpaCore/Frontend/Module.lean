import NpaCore.Frontend.ParsedTerms

/-!
# The parser of Machine Surface modules

Modules of `machine.rs` and the part of `parser.rs` that reads them. A module is a list of
items, the imports first.

## Main results

- `parseItems_eq`: the loop over the items is the loop of the source.
- `parseMachineModule_surface`: a parsed module has no resolved locals.
-/

namespace NpaCore.Frontend

open NpaCore.Parser

structure MachineUniverseParam where
  name : String
  deriving DecidableEq, Repr

structure MachineDecl where
  name : MachineName
  universeParams : List MachineUniverseParam
  binders : List MachineBinder
  ty : MachineTerm
  value : MachineTerm

inductive DefinitionReducibility where
  | reducible
  | opaqueDef
  deriving DecidableEq, Repr

structure MachineDefinitionDecl where
  declaration : MachineDecl
  reducibility : DefinitionReducibility

inductive MachineItem where
  | importModule (module : MachineName)
  | defDecl (definition : MachineDefinitionDecl)
  | theoremDecl (decl : MachineDecl)

/-- The file and the span of a module are left out. -/
structure MachineModule where
  items : List MachineItem

/-! ### Declarations -/

def parseOptionalUniverseParams : TokenParser (List MachineUniverseParam) := do
  if ← ahead atUniverseBrace then do
    expectUnit .dot "expected '.'"
    expectUnit .lbrace "expected '\x7b'"
    let first ← expectIdent "expected universe parameter name"
    let others ← whileAhead (fun input => peekKind input = .comma) do
      expectUnit .comma "expected ','"
      expectIdent "expected universe parameter name"
    expectUnit .rbrace "expected '\x7d'"
    pure ((first :: others).map MachineUniverseParam.mk)
  else pure []

def parseDeclAfterKeyword : TokenParser MachineDecl := do
  let name ← parseName
  let universeParams ← parseOptionalUniverseParams
  let binders ← whileAhead (fun input => peekKind input = .lparen) (parseBinder parseTerm)
  expectUnit .colon "expected ':'"
  let ty ← parseTerm
  expectUnit .colonEq "expected ':='"
  let value ← parseTerm
  pure ⟨name, universeParams, binders, ty, value⟩

/-! ### Items -/

def parseImport : TokenParser MachineItem := do
  expectUnit (.keyword .importKw) "expected import"
  let module ← parseName
  pure (.importModule module)

def tokenDescription : TokenKind → String
  | .keyword .theoremKw => "`theorem`"
  | .keyword .axiomKw => "`axiom`"
  | .keyword .inductiveKw => "`inductive`"
  | .keyword .opaqueKw => "another `opaque`"
  | .eof => "end of file"
  | _ => "a non-`def` token"

def duplicateOpaqueModifier : MachineDiagnostic :=
  ⟨.duplicateOpaqueModifier, "duplicate `opaque` modifier before `def`"⟩

def opaqueModifierNotFollowedByDef (following : String) : MachineDiagnostic :=
  ⟨.opaqueModifierNotFollowedByDef, "`opaque` may only modify `def`; found " ++ following⟩

/-- The checks of `parse_opaque_definition` on the token after `opaque`. -/
def ensureDefAfterOpaque : TokenParser Unit := fun input =>
  match peekKind input with
  | .keyword .opaqueKw => .error duplicateOpaqueModifier
  | .keyword .defKw => .ok ((), input)
  | kind => .error (opaqueModifierNotFollowedByDef (tokenDescription kind))

def parseOpaqueDefinition : TokenParser MachineItem := do
  expectUnit (.keyword .opaqueKw) "expected opaque"
  ensureDefAfterOpaque
  expectUnit (.keyword .defKw) "expected def"
  let declaration ← parseDeclAfterKeyword
  pure (.defDecl ⟨declaration, .opaqueDef⟩)

def importAfterItem : MachineDiagnostic :=
  ⟨.importAfterItem, "import items must appear before definitions and theorems"⟩

/-- One turn of the loop of `parse_module`. -/
def parseItem (sawNonImport : Bool) : TokenParser MachineItem := fun input =>
  match peekKind input with
  | .keyword .importKw => if sawNonImport then .error importAfterItem else parseImport input
  | .keyword .defKw => (do
      expectUnit (.keyword .defKw) "expected def"
      let declaration ← parseDeclAfterKeyword
      pure (.defDecl ⟨declaration, .reducible⟩) : TokenParser MachineItem) input
  | .keyword .opaqueKw => parseOpaqueDefinition input
  | .keyword .theoremKw => (do
      expectUnit (.keyword .theoremKw) "expected theorem"
      let decl ← parseDeclAfterKeyword
      pure (.theoremDecl decl) : TokenParser MachineItem) input
  | .keyword .openKw | .keyword .namespaceKw | .keyword .matchKw | .keyword .withKw
  | .keyword .notationKw | .keyword .infixKw | .keyword .infixlKw | .keyword .infixrKw =>
    .error ⟨.unsupportedSyntax, "open, namespace, match, with, and notation declarations are " ++
      "not Machine Surface syntax"⟩
  | .keyword .axiomKw | .keyword .inductiveKw =>
    .error ⟨.unsupportedItem, "source-level axiom and inductive declarations are not Machine " ++
      "Surface items"⟩
  | .hole | .namedHole _ => .error holeNotAllowed
  | _ => .error (.parse "expected import, def, theorem, or end of file")

/-- After an import the next item may be an import too. -/
def MachineItem.isImport : MachineItem → Bool
  | .importModule _ => true
  | _ => false

/-- The loop of `parse_module`, on at most as many turns as there are tokens. -/
def parseItemsN : Nat → Bool → TokenParser (List MachineItem)
  | 0, _ => pure []
  | turns + 1, sawNonImport => do
    if ← ahead (fun input => peekKind input ≠ .eof) then do
      let item ← parseItem sawNonImport
      let others ← parseItemsN turns (sawNonImport || !item.isImport)
      pure (item :: others)
    else pure []

def parseItems (sawNonImport : Bool) : TokenParser (List MachineItem) := fun input =>
  parseItemsN input.length sawNonImport input

def parseMachineModule (source : String) : MachineResult MachineModule := do
  let tokens ← lex source
  let (items, _) ← parseItems false (tokens.filter (· ≠ .comment))
  .ok ⟨items⟩

/-! ### Parsed items -/

/-- What the parser leaves: no term has a resolved local. -/
structure MachineDecl.Surface (decl : MachineDecl) : Prop where
  binders : SpelledBinders anySpelling decl.binders
  ty : decl.ty.Spelled anySpelling
  value : decl.value.Spelled anySpelling

def MachineItem.Surface : MachineItem → Prop
  | .importModule _ => True
  | .defDecl definition => definition.declaration.Surface
  | .theoremDecl decl => decl.Surface

def MachineModule.Surface (module : MachineModule) : Prop := ∀ item ∈ module.items, item.Surface

theorem parseOptionalUniverseParams_shrinks : Shrinks parseOptionalUniverseParams := by
  have names : Shrinks (expectIdent "expected universe parameter name") :=
    (expectIdent_consumes _).shrinks
  refine Ensures.ahead.bind fun _ _ => Ensures.ite (fun _ => ?_) fun _ => Ensures.pure trivial
  refine expectUnit_ensures.bind fun _ _ => expectUnit_ensures.bind fun _ _ => ?_
  refine names.bind fun _ _ => ?_
  refine (Ensures.whileAhead (expectUnit_ensures.bind fun _ _ => names)).bind fun _ _ => ?_
  exact expectUnit_ensures.bind fun _ _ => Ensures.pure trivial

theorem parseDeclAfterKeyword_ensures :
    Ensures (fun _ => True) parseDeclAfterKeyword MachineDecl.Surface := by
  have terms := parseTerm_spelled anySpelling_spells
  refine (parseName_ensures anySpelling_spells).bind fun name _ => ?_
  refine parseOptionalUniverseParams_shrinks.bind fun universeParams _ => ?_
  refine (parseBinder_ensures anySpelling_spells terms).whileAhead.bind fun binders each => ?_
  refine expectUnit_ensures.bind fun _ _ => terms.bind fun ty spelledTy => ?_
  refine expectUnit_ensures.bind fun _ _ => terms.bind fun value spelledValue => Ensures.pure ?_
  exact ⟨spelledBinders_of_forall each, spelledTy, spelledValue⟩

theorem ensureDefAfterOpaque_shrinks : Shrinks ensureDefAfterOpaque := by
  intro input u rest _ ok
  unfold ensureDefAfterOpaque at ok
  split at ok
  · cases ok
  · cases ok
    exact ⟨trivial, List.suffix_refl _⟩
  · cases ok

theorem parseItem_ensures (sawNonImport : Bool) :
    Ensures (fun _ => True) (parseItem sawNonImport) MachineItem.Surface := by
  intro input item rest tokens ok
  have decls := parseDeclAfterKeyword_ensures
  unfold parseItem at ok
  split at ok
  · -- an import has no terms
    split at ok
    · cases ok
    · exact (expectUnit_ensures.bind fun _ _ => (parseName_ensures anySpelling_spells).bind
        fun _ _ => Ensures.pure trivial) input item rest tokens ok
  · refine (expectUnit_ensures.bind fun _ _ => ?_) input item rest tokens ok
    exact decls.bind fun _ surface => Ensures.pure surface
  · refine (expectUnit_ensures.bind fun _ _ => ?_) input item rest tokens ok
    refine ensureDefAfterOpaque_shrinks.bind fun _ _ => expectUnit_ensures.bind fun _ _ => ?_
    exact decls.bind fun _ surface => Ensures.pure surface
  · refine (expectUnit_ensures.bind fun _ _ => ?_) input item rest tokens ok
    exact decls.bind fun _ surface => Ensures.pure surface
  all_goals cases ok

theorem parseItemsN_ensures (turns : Nat) (sawNonImport : Bool) :
    Ensures (fun _ => True) (parseItemsN turns sawNonImport)
      fun items => ∀ item ∈ items, item.Surface := by
  induction turns generalizing sawNonImport with
  | zero => exact Ensures.pure (by simp)
  | succ turns ih =>
    refine Ensures.ahead.bind fun _ _ => Ensures.ite (fun _ => ?_) fun _ => Ensures.pure (by simp)
    refine (parseItem_ensures sawNonImport).bind fun item surface => ?_
    refine (ih _).bind fun others surfaces => Ensures.pure ?_
    exact List.forall_mem_cons.mpr ⟨surface, surfaces⟩

theorem parseMachineModule_surface {source : String} {module : MachineModule}
    (ok : parseMachineModule source = .ok module) : module.Surface := by
  obtain ⟨tokens, _, ok⟩ := Result.bind_eq_ok.mp ok
  obtain ⟨⟨items, rest⟩, parsed, ok⟩ := Result.bind_eq_ok.mp ok
  cases ok
  exact (parseItemsN_ensures _ false _ items rest (fun _ _ => trivial) parsed).1

/-! ### The loop of the source -/

theorem parseItem_consumes (sawNonImport : Bool) : Consumes (parseItem sawNonImport) := by
  have names : Shrinks parseName := (parseName_ensures anySpelling_spells).shrinks
  have decls : Shrinks parseDeclAfterKeyword := parseDeclAfterKeyword_ensures.shrinks
  intro input item rest ok
  unfold parseItem at ok
  split at ok
  · split at ok
    · cases ok
    · exact ((expectUnit_consumes _ _).bind fun _ => names.bind fun _ _ => Ensures.pure trivial)
        input item rest ok
  · exact ((expectUnit_consumes _ _).bind fun _ => decls.bind fun _ _ => Ensures.pure trivial)
      input item rest ok
  · exact ((expectUnit_consumes _ _).bind fun _ => ensureDefAfterOpaque_shrinks.bind fun _ _ =>
      expectUnit_ensures.bind fun _ _ => decls.bind fun _ _ => Ensures.pure trivial)
      input item rest ok
  · exact ((expectUnit_consumes _ _).bind fun _ => decls.bind fun _ _ => Ensures.pure trivial)
      input item rest ok
  all_goals cases ok

/-- Every item reads a token, so more turns than tokens change nothing. -/
theorem parseItemsN_agree {size turns more : Nat} (enough : size ≤ turns) (still : size ≤ more)
    (sawNonImport : Bool) :
    AgreeBelow (size + 1) (parseItemsN turns sawNonImport) (parseItemsN more sawNonImport) := by
  induction size generalizing turns more sawNonImport with
  | zero =>
    intro input small
    obtain rfl : input = [] := List.length_eq_zero_iff.mp (by omega)
    have stops : ∀ turns, parseItemsN turns sawNonImport [] = .ok ([], []) := by
      intro turns
      cases turns <;> rfl
    rw [stops turns, stops more]
  | succ size ih =>
    cases turns with
    | zero => omega
    | succ turns =>
      cases more with
      | zero => omega
      | succ more =>
        refine AgreeBelow.refl.bind Ensures.ahead fun _ => AgreeBelow.ite ?_ AgreeBelow.refl
        refine AgreeBelow.after (parseItem_consumes sawNonImport) fun item => ?_
        refine (ih (Nat.le_of_succ_le_succ enough) (Nat.le_of_succ_le_succ still) _).bind ?_
          fun _ => AgreeBelow.refl
        exact (parseItemsN_ensures more _).shrinks

theorem parseItems_eq (sawNonImport : Bool) :
    parseItems sawNonImport = (do
      if ← ahead (fun input => peekKind input ≠ .eof) then do
        let item ← parseItem sawNonImport
        let others ← parseItems (sawNonImport || !item.isImport)
        pure (item :: others)
      else pure [] : TokenParser (List MachineItem)) := by
  funext input
  have once : AgreeBelow (input.length + 1) (parseItemsN (input.length + 1) sawNonImport)
      (parseItemsN input.length sawNonImport) :=
    parseItemsN_agree (Nat.le_succ _) (Nat.le_refl _) sawNonImport
  have inner : ∀ saw, AgreeBelow (input.length + 1) (parseItemsN input.length saw)
      (parseItems saw) := by
    intro saw smaller small
    exact parseItemsN_agree (Nat.le_of_lt_succ small) (Nat.le_refl _) saw smaller
      (Nat.lt_succ_self _)
  have shrinks : ∀ saw, Shrinks (parseItems saw) :=
    fun saw input => (parseItemsN_ensures input.length saw).shrinks input
  refine (once input (Nat.lt_succ_self _)).symm.trans ?_
  refine AgreeBelow.refl.bind Ensures.ahead (fun go => AgreeBelow.ite ?_ AgreeBelow.refl) input
    (Nat.lt_succ_self _)
  refine AgreeBelow.refl.bind (parseItem_consumes sawNonImport).shrinks fun item => ?_
  exact (inner _).bind (shrinks _) fun _ => AgreeBelow.refl

end NpaCore.Frontend
