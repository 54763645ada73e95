import NpaCore.Frontend.TermSourceCodec

/-!
# What the parser makes of lexed tokens

The parser of terms is the recursion of the source, and the terms it returns are
spelled with the words of their tokens.

## Main results

* `parseLevel_eq`, `parseTerm_eq`: a level and a term are read by their bodies, with
  themselves as the inner parser.
* `parseTerm_spelled`: names, binders and universe parameters come from the tokens, lists
  are not empty, and no local is resolved.
* `parseMachineTerm_spelled`: so a term of a source has the spellings of the lexer.
-/

namespace NpaCore.Frontend

open NpaCore.Parser

/-! ### Single tokens -/

/-- What good tokens give to the spellings of the terms read from them. -/
structure SpellsTokens (good : TokenKind → Prop) (spelling : Spelling) : Prop where
  identifier : ∀ {name}, good (.ident name) → spelling.identifier name
  component : ∀ {name}, good (.ident name) → spelling.component name
  reserved : ∀ {kind text}, reservedNameComponentSpelling kind = some text →
    spelling.component text
  len : ∀ {count}, count ≠ 0 → spelling.len count

/-- Of any tokens, nothing is asked. -/
theorem anySpelling_spells : SpellsTokens (fun _ => True) anySpelling where
  identifier _ := trivial
  component _ := trivial
  reserved _ := trivial
  len _ := trivial

theorem expectUnit_eq_ok {expected : TokenKind} {message : String} {input rest : List TokenKind}
    {u : Unit} : expectUnit expected message input = .ok (u, rest) ↔ input = expected :: rest := by
  cases input with
  | nil => simp [expectUnit]
  | cons kind others =>
    rw [expectUnit]
    split
    next same => simp [same]
    next other => simp [other]

theorem expectUnit_consumes (expected : TokenKind) (message : String) :
    Consumes (expectUnit expected message) := by
  intro input u rest ok
  obtain rfl := expectUnit_eq_ok.mp ok
  exact ⟨List.suffix_cons _ _, Nat.lt_succ_self _⟩

theorem expectIdent_eq_ok {message name : String} {input rest : List TokenKind} :
    expectIdent message input = .ok (name, rest) ↔ input = .ident name :: rest := by
  unfold expectIdent
  split
  · simp
  · next other =>
    simp only [reduceCtorEq, false_iff]
    exact fun same => other _ _ same

theorem expectIdent_consumes (message : String) : Consumes (expectIdent message) := by
  intro input name rest ok
  obtain rfl := expectIdent_eq_ok.mp ok
  exact ⟨List.suffix_cons _ _, Nat.lt_succ_self _⟩

theorem expectDottedNameComponent_consumes (message : String) :
    Consumes (expectDottedNameComponent message) := by
  intro input name rest ok
  cases input with
  | nil => exact expectIdent_consumes message _ _ _ ok
  | cons kind others =>
    rw [expectDottedNameComponent] at ok
    split at ok
    · cases ok
      exact ⟨List.suffix_cons _ _, Nat.lt_succ_self _⟩
    · exact expectIdent_consumes message _ _ _ ok

theorem dottedComponent_consumes : Consumes (do
    expectUnit .dot "expected '.'"
    expectDottedNameComponent "expected identifier after '.'") :=
  (expectUnit_consumes _ _).bind fun _ => (expectDottedNameComponent_consumes _).shrinks

section Tokens

variable {good : TokenKind → Prop} {spelling : Spelling}

theorem expectUnit_ensures {expected : TokenKind} {message : String} :
    Ensures good (expectUnit expected message) fun _ => True := by
  intro input u rest _ ok
  exact ⟨trivial, (expectUnit_consumes _ _ _ _ _ ok).1⟩

theorem expectIdent_ensures {message : String} :
    Ensures good (expectIdent message) fun name => good (.ident name) := by
  intro input name rest tokens ok
  obtain rfl := expectIdent_eq_ok.mp ok
  exact ⟨tokens _ (List.mem_cons_self ..), List.suffix_cons _ _⟩

theorem expectDottedNameComponent_ensures (spells : SpellsTokens good spelling)
    {message : String} : Ensures good (expectDottedNameComponent message) spelling.component := by
  intro input name rest tokens ok
  refine ⟨?_, (expectDottedNameComponent_consumes _ _ _ _ ok).1⟩
  cases input with
  | nil => simp [expectDottedNameComponent, expectIdent] at ok
  | cons kind others =>
    rw [expectDottedNameComponent] at ok
    split at ok
    next text reserved =>
      cases ok
      exact spells.reserved reserved
    next =>
      exact spells.component (expectIdent_ensures _ _ _ tokens ok).1

/-! ### Names and levels -/

theorem parseName_ensures (spells : SpellsTokens good spelling) :
    Ensures good parseName fun name =>
      spelling.len name.parts.length ∧ SpelledParts spelling name.parts := by
  refine expectIdent_ensures.bind fun first hfirst => ?_
  have components : Ensures good (do
      expectUnit .dot "expected '.'"
      expectDottedNameComponent "expected identifier after '.'") spelling.component :=
    expectUnit_ensures.bind fun _ _ => expectDottedNameComponent_ensures spells
  refine components.whileAhead.bind fun others hothers => Ensures.pure ?_
  exact ⟨spells.len (by simp), spells.identifier hfirst, hothers⟩

theorem parseLevelBody_ensures (spells : SpellsTokens good spelling)
    (inner : TokenParser MachineLevel)
    (levels : Ensures good inner (MachineLevel.Spelled spelling)) :
    Ensures good (parseLevelBody inner) (MachineLevel.Spelled spelling) := by
  intro input level rest tokens ok
  have others {kind : TokenKind} {middle : List TokenKind} {p : TokenParser MachineLevel}
      (same : input = kind :: middle) (read : p middle = .ok (level, rest))
      (ensures : Ensures good p (MachineLevel.Spelled spelling)) :
      level.Spelled spelling ∧ rest <:+ input := by
    subst same
    obtain ⟨spelled, suffix⟩ := ensures middle level rest
      (fun t mem => tokens t (List.mem_cons_of_mem _ mem)) read
    exact ⟨spelled, suffix.trans (List.suffix_cons _ _)⟩
  have both (make : MachineLevel → MachineLevel → MachineLevel)
      (spelled : ∀ lhs rhs, lhs.Spelled spelling → rhs.Spelled spelling →
        (make lhs rhs).Spelled spelling) :
      Ensures good (do
        let lhs ← inner
        let rhs ← inner
        pure (make lhs rhs)) (MachineLevel.Spelled spelling) :=
    levels.bind fun lhs hl => levels.bind fun rhs hr => Ensures.pure (spelled lhs rhs hl hr)
  unfold parseLevelBody at ok
  split at ok
  · cases ok
    exact ⟨trivial, List.suffix_cons _ _⟩
  · exact others rfl ok (levels.bind fun level spelled => Ensures.pure spelled)
  · exact others rfl ok (both .max fun _ _ hl hr => ⟨hl, hr⟩)
  · exact others rfl ok (both .imax fun _ _ hl hr => ⟨hl, hr⟩)
  · cases ok
    exact ⟨spells.identifier (tokens _ (List.mem_cons_self ..)), List.suffix_cons _ _⟩
  · cases ok

theorem parseLevel_ensures (spells : SpellsTokens good spelling) :
    Ensures good parseLevel (MachineLevel.Spelled spelling) :=
  Ensures.descend (parseLevelBody_ensures spells)

theorem parseOptionalUniverseArgs_ensures (spells : SpellsTokens good spelling) :
    Ensures good parseOptionalUniverseArgs (SpelledArgs spelling) := by
  have levels := parseLevel_ensures spells
  refine Ensures.ahead.bind fun go _ => Ensures.ite (fun _ => ?_) fun _ => Ensures.pure trivial
  refine expectUnit_ensures.bind fun _ _ => expectUnit_ensures.bind fun _ _ => ?_
  refine levels.bind fun first hfirst => ?_
  refine (Ensures.whileAhead (expectUnit_ensures.bind fun _ _ => levels)).bind
    fun others hothers => ?_
  refine expectUnit_ensures.bind fun _ _ => Ensures.pure ⟨spells.len (by simp), ?_⟩
  simpa using ⟨hfirst, hothers⟩

/-! ### Terms -/

theorem parseRef_ensures (spells : SpellsTokens good spelling) (mode : Bool) :
    Ensures good (parseRef mode) (MachineTerm.Spelled spelling) := by
  refine (parseName_ensures spells).bind fun name hname => ?_
  refine (parseOptionalUniverseArgs_ensures spells).bind fun args hargs => Ensures.pure ?_
  exact ⟨hname.1, hname.2, hargs⟩

theorem parseType_ensures (spells : SpellsTokens good spelling) :
    Ensures good parseType (MachineTerm.Spelled spelling) := by
  refine expectUnit_ensures.bind fun _ _ => Ensures.ahead.bind fun go _ => ?_
  refine Ensures.ite (fun _ => ?_) fun _ => Ensures.pure trivial
  exact (parseLevel_ensures spells).bind fun level spelled => Ensures.pure spelled

theorem parseSort_ensures (spells : SpellsTokens good spelling) :
    Ensures good parseSort (MachineTerm.Spelled spelling) := by
  refine expectUnit_ensures.bind fun _ _ => ?_
  exact (parseLevel_ensures spells).bind fun level spelled => Ensures.pure spelled

section Inner

variable {inner : TokenParser MachineTerm}

theorem parseAtom_ensures (spells : SpellsTokens good spelling)
    (terms : Ensures good inner (MachineTerm.Spelled spelling)) :
    Ensures good (parseAtom inner) (MachineTerm.Spelled spelling) := by
  intro input term rest tokens ok
  unfold parseAtom at ok
  split at ok
  · exact parseRef_ensures spells false input term rest tokens ok
  · exact (expectUnit_ensures.bind fun _ _ => parseRef_ensures spells true) input term rest
      tokens ok
  · exact (expectUnit_ensures.bind fun _ _ => Ensures.pure trivial) input term rest tokens ok
  · exact parseType_ensures spells input term rest tokens ok
  · exact parseSort_ensures spells input term rest tokens ok
  · exact (expectUnit_ensures.bind fun _ _ => terms.bind fun inside spelled =>
      expectUnit_ensures.bind fun _ _ => Ensures.pure spelled) input term rest tokens ok
  all_goals cases ok

theorem spelled_foldl_app {func : MachineTerm} {args : List MachineTerm}
    (hfunc : func.Spelled spelling) (hargs : ∀ arg ∈ args, arg.Spelled spelling) :
    (args.foldl .app func).Spelled spelling := by
  induction args generalizing func with
  | nil => exact hfunc
  | cons arg args ih =>
    rw [List.forall_mem_cons] at hargs
    exact ih (by rw [MachineTerm.Spelled]; exact ⟨hfunc, hargs.1⟩) hargs.2

theorem parseApp_ensures (spells : SpellsTokens good spelling)
    (terms : Ensures good inner (MachineTerm.Spelled spelling)) :
    Ensures good (parseApp inner) (MachineTerm.Spelled spelling) := by
  have atoms := parseAtom_ensures spells terms
  refine atoms.bind fun func hfunc => (Ensures.whileAhead atoms).bind fun args hargs => ?_
  exact Ensures.pure (spelled_foldl_app hfunc hargs)

theorem parseAnnotation_ensures (spells : SpellsTokens good spelling)
    (terms : Ensures good inner (MachineTerm.Spelled spelling)) :
    Ensures good ( parseAnnotation inner) (MachineTerm.Spelled spelling) := by
  refine (parseApp_ensures spells terms).bind fun expr hexpr => Ensures.ahead.bind fun go _ => ?_
  refine Ensures.ite (fun _ => ?_) fun _ => Ensures.pure hexpr
  exact expectUnit_ensures.bind fun _ _ => terms.bind fun ty hty =>
    Ensures.pure (by rw [MachineTerm.Spelled]; exact ⟨hexpr, hty⟩)

theorem parseBinder_ensures (spells : SpellsTokens good spelling)
    (terms : Ensures good inner (MachineTerm.Spelled spelling)) :
    Ensures good (parseBinder inner) fun binder => SpelledBinders spelling [binder] := by
  refine expectUnit_ensures.bind fun _ _ => expectIdent_ensures.bind fun name hname => ?_
  refine Ensures.ahead.bind fun _ _ => Ensures.ensure.bind fun _ _ => ?_
  refine expectUnit_ensures.bind fun _ _ => terms.bind fun ty hty => ?_
  refine expectUnit_ensures.bind fun _ _ => Ensures.pure ?_
  rw [SpelledBinders]
  exact ⟨spells.identifier hname, hty, by rw [SpelledBinders]; trivial⟩

theorem spelledBinders_of_forall {binders : List MachineBinder}
    (h : ∀ binder ∈ binders, SpelledBinders spelling [binder]) :
    SpelledBinders spelling binders := by
  induction binders with
  | nil =>
    rw [SpelledBinders]
    trivial
  | cons binder binders ih =>
    rw [List.forall_mem_cons] at h
    cases binder with
    | mk name ty =>
      rw [SpelledBinders] at h ⊢
      exact ⟨h.1.1, h.1.2.1, ih h.2⟩

/-- The list is not empty: the loop begins where the check found a parenthesis. -/
theorem parseBinders_ensures (spells : SpellsTokens good spelling)
    (terms : Ensures good inner (MachineTerm.Spelled spelling)) (message : String) :
    Ensures good (parseBinders inner message) fun binders =>
      spelling.len binders.length ∧ SpelledBinders spelling binders := by
  intro input binders rest tokens ok
  have each : Ensures good (whileAhead (fun input => peekKind input = .lparen) (parseBinder inner))
      fun binders => ∀ binder ∈ binders, SpelledBinders spelling [binder] :=
    (parseBinder_ensures spells terms).whileAhead
  obtain ⟨_, _, ahead, ok⟩ := bind_eq_ok.mp ok
  obtain ⟨parenthesized, rfl⟩ := ahead_eq_ok.mp ahead
  obtain ⟨_, _, ensured, ok⟩ := bind_eq_ok.mp ok
  obtain ⟨rfl, rfl⟩ := ensure_eq_ok.mp ensured
  obtain ⟨spelled, suffix⟩ := each _ _ _ tokens ok
  have started : input ≠ [] := by
    rintro rfl
    simp [peekKind] at parenthesized
  have nonempty := whileAhead_ne_nil started parenthesized ok
  exact ⟨⟨spells.len fun empty => nonempty (List.length_eq_zero_iff.mp empty),
    spelledBinders_of_forall spelled⟩, suffix⟩

theorem parseLam_ensures (spells : SpellsTokens good spelling)
    (terms : Ensures good inner (MachineTerm.Spelled spelling)) :
    Ensures good (parseLam inner) (MachineTerm.Spelled spelling) := by
  refine expectUnit_ensures.bind fun _ _ => ?_
  refine (parseBinders_ensures spells terms _).bind fun binders hbinders => ?_
  refine expectUnit_ensures.bind fun _ _ => terms.bind fun body hbody => Ensures.pure ?_
  rw [MachineTerm.Spelled]
  exact ⟨hbinders.1, hbinders.2, hbody⟩

theorem parsePi_ensures (spells : SpellsTokens good spelling)
    (terms : Ensures good inner (MachineTerm.Spelled spelling)) :
    Ensures good (parsePi inner) (MachineTerm.Spelled spelling) := by
  refine expectUnit_ensures.bind fun _ _ => ?_
  refine (parseBinders_ensures spells terms _).bind fun binders hbinders => ?_
  refine expectUnit_ensures.bind fun _ _ => terms.bind fun body hbody => Ensures.pure ?_
  rw [MachineTerm.Spelled]
  exact ⟨hbinders.1, hbinders.2, hbody⟩

theorem parseTermBody_ensures (spells : SpellsTokens good spelling)
    (terms : Ensures good inner (MachineTerm.Spelled spelling)) :
    Ensures good (parseTermBody inner) (MachineTerm.Spelled spelling) := by
  intro input term rest tokens ok
  unfold parseTermBody at ok
  split at ok
  · exact parseLam_ensures spells terms input term rest tokens ok
  · exact parsePi_ensures spells terms input term rest tokens ok
  · exact parseAnnotation_ensures spells terms input term rest tokens ok

end Inner

theorem parseTerm_spelled (spells : SpellsTokens good spelling) :
    Ensures good parseTerm (MachineTerm.Spelled spelling) :=
  Ensures.descend fun _ terms => parseTermBody_ensures spells terms

end Tokens

/-! ### The recursion of the source -/

section Recursion

variable {size : Nat}

theorem parseLevelBody_agree {p q : TokenParser MachineLevel} (shrinks : Shrinks q)
    (agree : AgreeBelow size p q) :
    AgreeBelow (size + 1) (parseLevelBody p) (parseLevelBody q) := by
  intro input small
  unfold parseLevelBody
  split
  · rfl
  · exact agree.bind shrinks (fun _ => AgreeBelow.refl) _ (Nat.lt_of_succ_lt_succ small)
  · exact agree.bind shrinks (fun _ => agree.bind shrinks fun _ => AgreeBelow.refl) _
      (Nat.lt_of_succ_lt_succ small)
  · exact agree.bind shrinks (fun _ => agree.bind shrinks fun _ => AgreeBelow.refl) _
      (Nat.lt_of_succ_lt_succ small)
  · rfl
  · rfl

theorem parseLevel_eq : parseLevel = parseLevelBody parseLevel :=
  descend_eq (parseLevelBody_ensures anySpelling_spells)
    fun _ _ _ levels agree => parseLevelBody_agree levels.shrinks agree

variable {p q : TokenParser MachineTerm}

theorem parseAtom_agree (shrinks : Shrinks q) (agree : AgreeBelow size p q) :
    AgreeBelow (size + 1) (parseAtom p) (parseAtom q) := by
  intro input small
  unfold parseAtom
  split
  case h_6 =>
    exact AgreeBelow.after (expectUnit_consumes _ _)
      (fun _ => agree.bind shrinks fun _ => AgreeBelow.refl) input small
  all_goals rfl

theorem parseBinders_agree (terms : Ensures (fun _ => True) q (MachineTerm.Spelled anySpelling))
    (agree : AgreeBelow size p q) (message : String) :
    AgreeBelow size (parseBinders p message) (parseBinders q message) := by
  have binder : AgreeBelow size (parseBinder p) (parseBinder q) := by
    refine AgreeBelow.refl.bind expectUnit_ensures fun _ => ?_
    refine AgreeBelow.refl.bind expectIdent_ensures.shrinks fun name => ?_
    refine AgreeBelow.refl.bind Ensures.ahead fun _ => ?_
    refine AgreeBelow.refl.bind Ensures.ensure.shrinks fun _ => ?_
    refine AgreeBelow.refl.bind expectUnit_ensures fun _ => ?_
    exact agree.bind terms.shrinks fun _ => AgreeBelow.refl
  refine AgreeBelow.refl.bind Ensures.ahead fun _ => ?_
  refine AgreeBelow.refl.bind Ensures.ensure.shrinks fun _ => ?_
  exact binder.whileAhead (parseBinder_ensures anySpelling_spells terms).shrinks

theorem parseTermBody_agree (terms : Ensures (fun _ => True) q (MachineTerm.Spelled anySpelling))
    (agree : AgreeBelow size p q) :
    AgreeBelow (size + 1) (parseTermBody p) (parseTermBody q) := by
  have atoms := parseAtom_agree terms.shrinks agree
  have shrinks : Shrinks (parseAtom q) := (parseAtom_ensures anySpelling_spells terms).shrinks
  have app : AgreeBelow (size + 1) (parseApp p) (parseApp q) := by
    refine atoms.bind shrinks fun _ => (atoms.whileAhead shrinks).bind ?_ fun _ => AgreeBelow.refl
    exact shrinks.whileAhead.shrinks
  have binders (message : String) := parseBinders_agree terms agree message
  have list (message : String) := (parseBinders_ensures anySpelling_spells terms message).shrinks
  intro input small
  unfold parseTermBody
  split
  · refine AgreeBelow.after (expectUnit_consumes _ _) (fun _ => ?_) input small
    refine (binders _).bind (list _) fun _ => AgreeBelow.refl.bind expectUnit_ensures fun _ => ?_
    exact agree.bind terms.shrinks fun _ => AgreeBelow.refl
  · refine AgreeBelow.after (expectUnit_consumes _ _) (fun _ => ?_) input small
    refine (binders _).bind (list _) fun _ => AgreeBelow.refl.bind expectUnit_ensures fun _ => ?_
    exact agree.bind terms.shrinks fun _ => AgreeBelow.refl
  · refine app.bind (parseApp_ensures anySpelling_spells terms).shrinks (fun _ => ?_) input small
    refine AgreeBelow.refl.bind Ensures.ahead fun _ => AgreeBelow.ite ?_ AgreeBelow.refl
    refine AgreeBelow.after (expectUnit_consumes _ _) fun _ => ?_
    exact agree.bind terms.shrinks fun _ => AgreeBelow.refl

theorem parseTerm_shrinks : Shrinks parseTerm := (parseTerm_spelled anySpelling_spells).shrinks

theorem parseRef_consumes (mode : Bool) : Consumes (parseRef mode) := by
  have names : Consumes parseName := (expectIdent_consumes _).bind fun _ =>
    (Ensures.whileAhead dottedComponent_consumes.shrinks).bind fun _ _ => Ensures.pure trivial
  exact names.bind fun _ =>
    (parseOptionalUniverseArgs_ensures anySpelling_spells).bind fun _ _ => Ensures.pure trivial

theorem parseAtom_consumes : Consumes (parseAtom parseTerm) := by
  have levels : Shrinks parseLevel := (parseLevel_ensures anySpelling_spells).shrinks
  intro input term rest ok
  unfold parseAtom at ok
  split at ok
  · exact parseRef_consumes false input term rest ok
  · exact ((expectUnit_consumes _ _).bind fun _ => (parseRef_consumes true).shrinks) input term
      rest ok
  · exact ((expectUnit_consumes _ _).bind fun _ => Ensures.pure trivial) input term rest ok
  · refine ((expectUnit_consumes _ _).bind fun _ => ?_) input term rest ok
    refine Ensures.ahead.bind fun _ _ => Ensures.ite (fun _ => ?_) fun _ => Ensures.pure trivial
    exact levels.bind fun _ _ => Ensures.pure trivial
  · refine ((expectUnit_consumes _ _).bind fun _ => ?_) input term rest ok
    exact levels.bind fun _ _ => Ensures.pure trivial
  · refine ((expectUnit_consumes _ _).bind fun _ => ?_) input term rest ok
    exact parseTerm_shrinks.bind fun _ _ => expectUnit_ensures.bind fun _ _ => Ensures.pure trivial
  all_goals cases ok

theorem parseBinder_consumes : Consumes (parseBinder parseTerm) := by
  refine (expectUnit_consumes _ _).bind fun _ => expectIdent_ensures.bind fun _ _ => ?_
  refine Ensures.ahead.bind fun _ _ => Ensures.ensure.bind fun _ _ => ?_
  refine expectUnit_ensures.bind fun _ _ => parseTerm_shrinks.bind fun _ _ => ?_
  exact expectUnit_ensures.bind fun _ _ => Ensures.pure trivial

theorem parseTerm_eq : parseTerm = parseTermBody parseTerm :=
  descend_eq (fun _ terms => parseTermBody_ensures anySpelling_spells terms)
    fun _ _ _ terms agree => parseTermBody_agree terms agree

end Recursion

/-! ### The words of the lexer -/

/-- A word that the lexer reads as a name. -/
def LexedIdent (text : String) : Prop :=
  isMachineIdentifier text = true ∧ keywordOf text = none ∧ text ≠ "let"

def LexedToken : TokenKind → Prop
  | .ident name => LexedIdent name
  | _ => True

/-- What the lexer makes of the words in head, dotted, binder and universe position. -/
def lexedSpelling : Spelling where
  identifier := LexedIdent
  component text := isMachineIdentifier text = true ∧ text ≠ "let"
  len count := count ≠ 0

theorem reservedNameComponentSpelling_word {kind : TokenKind} {text : String}
    (h : reservedNameComponentSpelling kind = some text) :
    isMachineIdentifier text = true ∧ text ≠ "let" := by
  cases kind with
  | keyword word =>
    cases word
    all_goals
      cases h
      decide
  | _ => cases h

theorem lexedSpelling_spells : SpellsTokens LexedToken lexedSpelling where
  identifier word := word
  component word := ⟨word.1, word.2.2⟩
  reserved h := reservedNameComponentSpelling_word h
  len nonempty := nonempty

theorem lexIdent_lexed {first : Char} {input rest : List Char} {kind : TokenKind}
    (start : isIdentStart first = true) (h : lexIdent first input = .ok (kind, rest)) :
    LexedToken kind := by
  simp only [lexIdent] at h
  split at h
  · cases h
  · next notLet =>
    split at h
    · cases h
      trivial
    · next notKeyword =>
      cases h
      refine ⟨?_, notKeyword, notLet⟩
      simp [isMachineIdentifier, start, List.all_takeWhile]

theorem lexStringLiteral_lexed {start : Nat} {escaped : Bool} {input rest : List Char}
    {kind : TokenKind} (h : lexStringLiteral start escaped input = .ok (kind, rest)) :
    LexedToken kind := by
  induction input generalizing escaped with
  | nil => simp [lexStringLiteral] at h
  | cons c others ih =>
    cases escaped with
    | true => exact ih (by simpa only [lexStringLiteral] using h)
    | false =>
      simp only [lexStringLiteral] at h
      split at h
      · exact ih h
      · split at h
        · cases h
          trivial
        · exact ih h

theorem lexToken_lexed {size : Nat} {c : Char} {input rest : List Char} {kind : TokenKind}
    (h : lexToken size c input = .ok (kind, rest)) : LexedToken kind := by
  unfold lexToken at h
  split at h
  case h_1 | h_10 | h_11 =>
    split at h
    all_goals
      cases h
      try trivial
  case h_2 => exact lexStringLiteral_lexed h
  case h_13 =>
    cases input with
    | nil =>
      cases h
      trivial
    | cons first others =>
      simp only [lexNamedHole] at h
      split at h
      all_goals
        cases h
        trivial
  case h_14 =>
    split at h
    · simp only [lexNumber] at h
      split at h
      · cases h
        trivial
      · cases h
    · split at h
      next start => exact lexIdent_lexed start h
      next => cases h
  all_goals
    cases h
    trivial

theorem lexFrom_lexed {size : Nat} {input : List Char} {tokens : List TokenKind}
    (h : lexFrom size input = .ok tokens) : ∀ token ∈ tokens, LexedToken token := by
  fun_induction lexFrom size input generalizing tokens with
  | case1 =>
    cases h
    simp [LexedToken]
  | case2 _ _ _ ih => exact ih h
  | case3 => cases h
  | case4 _ _ _ kind rest read ih =>
    obtain ⟨others, lexed, h⟩ := Result.bind_eq_ok.mp h
    cases h
    exact List.forall_mem_cons.mpr ⟨lexToken_lexed read, ih lexed⟩

theorem parseMachineTerm_spelled {source : String} {term : MachineTerm}
    (h : parseMachineTerm source = .ok term) : term.Spelled lexedSpelling := by
  simp only [parseMachineTerm, Result.bind_eq_ok] at h
  obtain ⟨tokens, lexed, ⟨parsed, rest⟩, read, _, _, h⟩ := h
  cases h
  refine (parseTerm_spelled lexedSpelling_spells _ _ _ (fun token mem => ?_) read).1
  exact lexFrom_lexed lexed token (List.mem_filter.mp mem).1

end NpaCore.Frontend
