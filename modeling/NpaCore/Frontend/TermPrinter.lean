import NpaCore.Frontend.ParsedTerms

/-!
# Terms written as source

Every term of a surface spelling can be written down: its parts stand in parentheses, a
blank follows each token, and universe levels are always given.

## Main results

* `parseTerm_print`: the parser reads a term back from its tokens.
* `lex_print`: the lexer reads the tokens back from their text.
* `parseMachineTerm_print`: so a term can be written as source that parses back to it.
-/

namespace NpaCore.Frontend

open NpaCore.Parser

/-! ### Tokens of a term -/

/-- The token the lexer makes of a word. -/
def wordToken (text : String) : TokenKind :=
  match keywordOf text with
  | some word => .keyword word
  | none => .ident text

def levelTokens : MachineLevel → List TokenKind
  | .nat value => [.number value]
  | .param name => [.ident name]
  | .succ level => .keyword .succKw :: levelTokens level
  | .max lhs rhs => .keyword .maxKw :: (levelTokens lhs ++ levelTokens rhs)
  | .imax lhs rhs => .keyword .imaxKw :: (levelTokens lhs ++ levelTokens rhs)

def componentTokens (component : String) : List TokenKind := [.dot, wordToken component]

def nameTokens : List String → List TokenKind
  | [] => []
  | head :: components => .ident head :: components.flatMap componentTokens

def argTokens (level : MachineLevel) : List TokenKind := .comma :: levelTokens level

def argsTokens : Option (List MachineLevel) → List TokenKind
  | none | some [] => []
  | some (first :: others) =>
    .dot :: .lbrace :: (levelTokens first ++ (others.flatMap argTokens ++ [.rbrace]))

mutual

def termTokens : MachineTerm → List TokenKind
  | .ident name universeArgs explicitMode =>
    (if explicitMode then [.at] else []) ++ (nameTokens name.parts ++ argsTokens universeArgs)
  | .local _ => []
  | .prop => [.keyword .propKw]
  | .type level => .keyword .typeKw :: levelTokens level
  | .sort level => .keyword .sortKw :: levelTokens level
  | .app func arg =>
    .lparen :: (termTokens func ++ .rparen :: .lparen :: (termTokens arg ++ [.rparen]))
  | .lam binders body =>
    .keyword .funKw :: (binderTokens binders ++ .fatArrow :: termTokens body)
  | .pi binders body =>
    .keyword .forallKw :: (binderTokens binders ++ .comma :: termTokens body)
  | .annot expr ty => .lparen :: (termTokens expr ++ .rparen :: .colon :: termTokens ty)

def binderTokens : List MachineBinder → List TokenKind
  | [] => []
  | .mk name ty :: binders =>
    .lparen :: .ident name :: .colon :: (termTokens ty ++ .rparen :: binderTokens binders)

end

/-! ### The parser reads the tokens back -/

/-- Where a term ends: at a parenthesis that closes it, or at the end of the source. -/
def TermEnd (rest : List TokenKind) : Prop := peekKind rest = .rparen ∨ peekKind rest = .eof

section Ends

variable {rest : List TokenKind}

theorem TermEnd.peek (h : TermEnd rest) {kind : TokenKind} (rparen : kind ≠ .rparen)
    (eof : kind ≠ .eof) : peekKind rest ≠ kind := by
  rintro rfl
  rcases h with h | h
  · exact rparen h
  · exact eof h

theorem TermEnd.universeBrace (h : TermEnd rest) : atUniverseBrace rest = false := by
  simp [atUniverseBrace, h.peek]

theorem TermEnd.nameDot (h : TermEnd rest) : atNameDot rest = false := by
  simp [atNameDot, h.peek]

theorem TermEnd.atomStart (h : TermEnd rest) : isAtomStart rest = false := by
  unfold isAtomStart
  rcases h with h | h
  · rw [h]
  · rw [h]

theorem TermEnd.rparen : TermEnd (.rparen :: rest) := .inl rfl

end Ends

theorem expectUnit_cons (kind : TokenKind) (message : String) (rest : List TokenKind) :
    expectUnit kind message (kind :: rest) = .ok ((), rest) := expectUnit_eq_ok.mpr rfl

theorem expectIdent_cons (name message : String) (rest : List TokenKind) :
    expectIdent message (.ident name :: rest) = .ok (name, rest) := rfl

theorem reservedNameComponentSpelling_keywordOf {text : String} {word : Keyword}
    (h : keywordOf text = some word) :
    reservedNameComponentSpelling (.keyword word) = some text := by
  unfold keywordOf at h
  split at h
  all_goals
    cases h
    try rfl

theorem expectDottedNameComponent_word (text message : String) (rest : List TokenKind) :
    expectDottedNameComponent message (wordToken text :: rest) = .ok (text, rest) := by
  rw [expectDottedNameComponent, wordToken]
  cases found : keywordOf text with
  | none => rfl
  | some word => simp only [reservedNameComponentSpelling_keywordOf found]

theorem parseLevel_print (level : MachineLevel) (rest : List TokenKind) :
    parseLevel (levelTokens level ++ rest) = .ok (level, rest) := by
  induction level generalizing rest with
  | nat value =>
    rw [parseLevel_eq]
    rfl
  | param name =>
    rw [parseLevel_eq]
    rfl
  | succ level ih =>
    rw [parseLevel_eq, levelTokens, List.cons_append]
    exact bind_of_ok (ih rest)
  | max lhs rhs ihl ihr =>
    rw [parseLevel_eq, levelTokens, List.cons_append, List.append_assoc]
    exact (bind_of_ok (ihl _)).trans (bind_of_ok (ihr rest))
  | imax lhs rhs ihl ihr =>
    rw [parseLevel_eq, levelTokens, List.cons_append, List.append_assoc]
    exact (bind_of_ok (ihl _)).trans (bind_of_ok (ihr rest))

variable {rest : List TokenKind}

theorem components_print (components : List String) (stop : atNameDot rest = false) :
    whileAhead atNameDot (do
      expectUnit .dot "expected '.'"
      expectDottedNameComponent "expected identifier after '.'")
      (components.flatMap componentTokens ++ rest) = .ok (components, rest) := by
  induction components with
  | nil => exact whileAhead_stop dottedComponent_consumes rfl stop
  | cons component components ih =>
    refine whileAhead_turn dottedComponent_consumes rfl ?_ ?_ ih
    · have word : wordToken component ≠ .lbrace := by
        unfold wordToken
        split <;> nofun
      simpa [atNameDot, componentTokens, peekKind, peekNextKind] using word
    · exact (bind_of_ok (expectUnit_cons _ _ _)).trans (expectDottedNameComponent_word _ _ _)

theorem parseName_print {parts : List String} (nonempty : parts.length ≠ 0)
    (stop : atNameDot rest = false) :
    parseName (nameTokens parts ++ rest) = .ok (⟨parts⟩, rest) := by
  cases parts with
  | nil => exact absurd rfl nonempty
  | cons head components =>
    rw [nameTokens, List.cons_append]
    exact (bind_of_ok (expectIdent_cons _ _ _)).trans (bind_of_ok (components_print _ stop))

theorem args_print (levels : List MachineLevel) (rest : List TokenKind)
    (stop : peekKind rest ≠ .comma) :
    whileAhead (fun input => decide (peekKind input = .comma)) (do
      expectUnit .comma "expected ','"
      parseLevel) (levels.flatMap argTokens ++ rest) = .ok (levels, rest) := by
  have consumes : Consumes (do
      expectUnit .comma "expected ','"
      parseLevel) :=
    (expectUnit_consumes _ _).bind fun _ => (parseLevel_ensures anySpelling_spells).shrinks
  induction levels with
  | nil => exact whileAhead_stop consumes rfl (by simpa using stop)
  | cons level levels ih =>
    refine whileAhead_turn consumes rfl ?_ ?_ ih
    · simp [argTokens, peekKind]
    · rw [List.flatMap_cons, List.append_assoc, argTokens, List.cons_append]
      exact (bind_of_ok (expectUnit_cons _ _ _)).trans (parseLevel_print _ _)

variable {args : Option (List MachineLevel)}

theorem parseOptionalUniverseArgs_print
    (spelled : SpelledArgs lexedSpelling args) (stop : TermEnd rest) :
    parseOptionalUniverseArgs (argsTokens args ++ rest) = .ok (args, rest) := by
  cases args with
  | none =>
    rw [parseOptionalUniverseArgs, ahead_bind, argsTokens, List.nil_append, stop.universeBrace]
    rfl
  | some levels =>
    cases levels with
    | nil => exact absurd rfl spelled.1
    | cons first others =>
      have list := args_print others (.rbrace :: rest) (by simp [peekKind])
      rw [parseOptionalUniverseArgs, ahead_bind, argsTokens]
      simp only [List.cons_append, List.append_assoc]
      refine (bind_of_ok (expectUnit_cons _ _ _)).trans ?_
      refine (bind_of_ok (expectUnit_cons _ _ _)).trans ?_
      refine (bind_of_ok (parseLevel_print _ _)).trans ?_
      exact (bind_of_ok list).trans (bind_of_ok (expectUnit_cons _ _ _))

theorem parseRef_print {name : MachineName} (mode : Bool)
    (nonempty : name.parts.length ≠ 0) (spelled : SpelledArgs lexedSpelling args)
    (stop : TermEnd rest) :
    parseRef mode (nameTokens name.parts ++ (argsTokens args ++ rest)) =
      .ok (.ident name args mode, rest) := by
  have ends : atNameDot (argsTokens args ++ rest) = false := by
    match args with
    | none => exact stop.nameDot
    | some [] => exact stop.nameDot
    | some (first :: others) => rfl
  refine (bind_of_ok (parseName_print nonempty ends)).trans ?_
  exact bind_of_ok (parseOptionalUniverseArgs_print spelled stop)

theorem parseType_print (level : MachineLevel) (stop : TermEnd rest) :
    parseType (.keyword .typeKw :: (levelTokens level ++ rest)) = .ok (.type level, rest) := by
  have start : isTypeLevelStart (levelTokens level ++ rest) = true := by
    cases level with
    | param name =>
      -- A name followed by a dot or a brace would be an argument of `Type`.
      cases rest with
      | nil => rfl
      | cons kind rest =>
        have dot : peekKind (kind :: rest) ≠ .dot := stop.peek nofun nofun
        have brace : peekKind (kind :: rest) ≠ .lbrace := stop.peek nofun nofun
        simp_all [isTypeLevelStart, levelTokens, peekKind, peekNextKind]
    | _ => rfl
  refine (bind_of_ok (expectUnit_cons _ _ _)).trans ?_
  rw [ahead_bind, start]
  exact bind_of_ok (parseLevel_print level rest)

variable {input rest : List TokenKind} {term : MachineTerm}

theorem parseApp_of_atom
    (atom : parseAtom parseTerm input = .ok (term, rest)) (stop : isAtomStart rest = false) :
    parseApp parseTerm input = .ok (term, rest) :=
  (bind_of_ok atom).trans (bind_of_ok (whileAhead_stop parseAtom_consumes rfl stop))

theorem parseTerm_of_app (app : parseApp parseTerm input = .ok (term, rest)) (stop : TermEnd rest)
    (start : peekKind input ≠ .keyword .funKw ∧ peekKind input ≠ .keyword .forallKw) :
    parseTerm input = .ok (term, rest) := by
  have colon : decide (peekKind rest = .colon) = false := by simp [stop.peek]
  rw [parseTerm_eq]
  unfold parseTermBody
  split
  next found => exact absurd found start.1
  next found => exact absurd found start.2
  next =>
    refine (bind_of_ok app).trans ?_
    rw [ahead_bind, colon]
    rfl

/-- A term that is a single atom. -/
theorem parseTerm_of_atom
    (atom : parseAtom parseTerm input = .ok (term, rest)) (stop : TermEnd rest) :
    parseTerm input = .ok (term, rest) := by
  refine parseTerm_of_app (parseApp_of_atom atom stop.atomStart) stop ⟨?_, ?_⟩
  · intro found
    simp [parseAtom, found] at atom
  · intro found
    simp [parseAtom, found] at atom

theorem parseAtom_paren {inside rest : List TokenKind}
    (read : parseTerm (inside ++ .rparen :: rest) = .ok (term, .rparen :: rest)) :
    parseAtom parseTerm (.lparen :: (inside ++ .rparen :: rest)) = .ok (term, rest) := by
  refine (bind_of_ok (expectUnit_cons _ _ _)).trans ((bind_of_ok read).trans ?_)
  exact bind_of_ok (expectUnit_cons _ _ _)

theorem parseBinders_of_while {binders : List MachineBinder}
    {message : String} (start : peekKind input = .lparen)
    (read : whileAhead (fun input => decide (peekKind input = .lparen)) (parseBinder parseTerm)
      input = .ok (binders, rest)) :
    parseBinders parseTerm message input = .ok (binders, rest) := by
  rw [parseBinders, ahead_bind, start]
  exact read

theorem binderTokens_start {binders : List MachineBinder} (nonempty : binders.length ≠ 0)
    : peekKind (binderTokens binders ++ rest) = .lparen := by
  cases binders with
  | nil => exact absurd rfl nonempty
  | cons binder binders =>
    cases binder
    rw [binderTokens]
    rfl

mutual

theorem parseTerm_print (term : MachineTerm) (spelled : term.Spelled lexedSpelling)
    (rest : List TokenKind) (stop : TermEnd rest) :
    parseTerm (termTokens term ++ rest) = .ok (term, rest) := by
  cases term with
  | ident name args mode =>
    rw [MachineTerm.Spelled] at spelled
    have ref := parseRef_print mode spelled.1 spelled.2.2 stop
    refine parseTerm_of_atom ?_ stop
    rw [termTokens]
    cases mode with
    | true =>
      rw [if_pos rfl, List.append_assoc, List.append_assoc]
      exact (bind_of_ok (expectUnit_cons _ _ _)).trans ref
    | false =>
      rw [if_neg nofun, List.nil_append, List.append_assoc]
      cases parts : name.parts with
      | nil => exact absurd (congrArg List.length parts) spelled.1
      | cons head components =>
        rw [parts] at ref
        exact ref
  | «local» name =>
    rw [MachineTerm.Spelled] at spelled
    exact spelled.elim
  | prop =>
    rw [termTokens]
    exact parseTerm_of_atom (bind_of_ok (expectUnit_cons _ _ _)) stop
  | type level =>
    rw [termTokens]
    exact parseTerm_of_atom (parseType_print level stop) stop
  | sort level =>
    rw [termTokens]
    refine parseTerm_of_atom ?_ stop
    exact (bind_of_ok (expectUnit_cons _ _ _)).trans (bind_of_ok (parseLevel_print level rest))
  | app func arg =>
    rw [MachineTerm.Spelled] at spelled
    have first := parseAtom_paren (parseTerm_print func spelled.1
      (.rparen :: .lparen :: (termTokens arg ++ .rparen :: rest)) TermEnd.rparen)
    have second := parseAtom_paren (parseTerm_print arg spelled.2 (.rparen :: rest) TermEnd.rparen)
    have args := whileAhead_turn parseAtom_consumes rfl rfl second
      (whileAhead_stop parseAtom_consumes rfl stop.atomStart)
    rw [termTokens]
    simp only [List.cons_append, List.append_assoc, List.nil_append]
    exact parseTerm_of_app ((bind_of_ok first).trans (bind_of_ok args)) stop ⟨nofun, nofun⟩
  | lam binders body =>
    rw [MachineTerm.Spelled] at spelled
    have list := binders_print binders spelled.2.1 (.fatArrow :: (termTokens body ++ rest)) nofun
    have last := parseTerm_print body spelled.2.2 rest stop
    rw [termTokens, parseTerm_eq]
    simp only [List.cons_append, List.append_assoc]
    refine (bind_of_ok (expectUnit_cons _ _ _)).trans ?_
    refine (bind_of_ok (parseBinders_of_while ?_ list)).trans ?_
    · exact binderTokens_start spelled.1
    · exact (bind_of_ok (expectUnit_cons _ _ _)).trans (bind_of_ok last)
  | pi binders body =>
    rw [MachineTerm.Spelled] at spelled
    have list := binders_print binders spelled.2.1 (.comma :: (termTokens body ++ rest)) nofun
    have last := parseTerm_print body spelled.2.2 rest stop
    rw [termTokens, parseTerm_eq]
    simp only [List.cons_append, List.append_assoc]
    refine (bind_of_ok (expectUnit_cons _ _ _)).trans ?_
    refine (bind_of_ok (parseBinders_of_while ?_ list)).trans ?_
    · exact binderTokens_start spelled.1
    · exact (bind_of_ok (expectUnit_cons _ _ _)).trans (bind_of_ok last)
  | annot expr ty =>
    rw [MachineTerm.Spelled] at spelled
    have first := parseAtom_paren (parseTerm_print expr spelled.1
      (.rparen :: .colon :: (termTokens ty ++ rest)) TermEnd.rparen)
    have second := parseTerm_print ty spelled.2 rest stop
    rw [termTokens, parseTerm_eq]
    simp only [List.cons_append, List.append_assoc]
    refine (bind_of_ok (parseApp_of_atom first rfl)).trans ?_
    rw [ahead_bind]
    exact (bind_of_ok (expectUnit_cons _ _ _)).trans (bind_of_ok second)

theorem binders_print (binders : List MachineBinder)
    (spelled : SpelledBinders lexedSpelling binders) (rest : List TokenKind)
    (stop : peekKind rest ≠ .lparen) :
    whileAhead (fun input => decide (peekKind input = .lparen)) (parseBinder parseTerm)
      (binderTokens binders ++ rest) = .ok (binders, rest) := by
  match binders with
  | [] =>
    rw [binderTokens]
    exact whileAhead_stop parseBinder_consumes rfl (by simpa using stop)
  | .mk name ty :: binders =>
    rw [SpelledBinders] at spelled
    have type := parseTerm_print ty spelled.2.1
      (.rparen :: (binderTokens binders ++ rest)) TermEnd.rparen
    have others := binders_print binders spelled.2.2 rest stop
    rw [binderTokens]
    simp only [List.cons_append, List.append_assoc]
    refine whileAhead_turn parseBinder_consumes rfl rfl ?_ others
    refine (bind_of_ok (expectUnit_cons _ _ _)).trans ?_
    refine (bind_of_ok (expectIdent_cons _ _ _)).trans ?_
    rw [ahead_bind]
    refine (bind_of_ok (a := ()) (ensure_eq_ok.mpr ⟨rfl, rfl⟩)).trans ?_
    refine (bind_of_ok (expectUnit_cons _ _ _)).trans ((bind_of_ok type).trans ?_)
    exact bind_of_ok (expectUnit_cons _ _ _)

end

/-! ### The lexer reads the text back -/

def keywordText (word : Keyword) : String :=
  (reservedNameComponentSpelling (.keyword word)).getD ""

/-- The text of a token that a term is written with. -/
def tokenText : TokenKind → List Char
  | .ident name => name.toList
  | .number value => Nat.toDigits 10 value.toNat
  | .keyword word => (keywordText word).toList
  | .dot => ['.']
  | .lbrace => ['\x7b']
  | .rbrace => ['\x7d']
  | .lparen => ['(']
  | .rparen => [')']
  | .colon => [':']
  | .comma => [',']
  | .fatArrow => ['=', '>']
  | .at => ['@']
  | .colonEq | .hole | .namedHole _ | .stringLiteral | .comment | .eof => []

def PrintedToken : TokenKind → Prop
  | .ident name => LexedIdent name
  | .colonEq | .hole | .namedHole _ | .stringLiteral | .comment | .eof => False
  | _ => True

/-- The text of a token, followed by a blank, is read as that token. -/
def LexesTo (text : List Char) (kind : TokenKind) : Prop :=
  ∃ c others, text = c :: others ∧ isWhitespace c = false ∧
    ∀ size rest, lexToken size c (others ++ ' ' :: rest) = .ok (kind, ' ' :: rest)

theorem isIdentStart_iff {c : Char} :
    isIdentStart c = true ↔ 65 ≤ c.toNat ∧ c.toNat ≤ 90 ∨ 97 ≤ c.toNat ∧ c.toNat ≤ 122 := by
  change (decide (c.val ≥ 65 ∧ c.val ≤ 90) || (decide (c.val ≥ 97) && decide (c.val ≤ 122))) =
    true ↔ _
  simp [UInt32.le_iff_toNat_le]

theorem isDigit_iff {c : Char} : c.isDigit = true ↔ 48 ≤ c.toNat ∧ c.toNat ≤ 57 := by
  simp [Char.isDigit, UInt32.le_iff_toNat_le]

theorem isWhitespace_of_printed {c : Char} (h : 33 ≤ c.toNat ∧ c.toNat ≤ 126) :
    isWhitespace c = false := by
  simp only [isWhitespace, Bool.or_eq_false_iff, Bool.and_eq_false_iff, decide_eq_false_iff_not]
  omega

/-- Letters and digits begin no punctuation. -/
theorem lexToken_word {size : Nat} {c : Char} {rest : List Char}
    (h : c.isDigit = true ∨ isIdentStart c = true) :
    lexToken size c rest = if c.isDigit then lexNumber c rest else lexIdent c rest := by
  unfold lexToken
  split
  case h_14 =>
    split
    · rfl
    · rw [if_pos (h.resolve_left (by assumption))]
  all_goals exact absurd h (by decide)

theorem takeWhile_blank {p : Char → Bool} {text rest : List Char} (all : text.all p = true)
    (stop : p ' ' = false) : (text ++ ' ' :: rest).takeWhile p = text := by
  rw [List.takeWhile_append_of_pos (List.all_eq_true.mp all), List.takeWhile_cons_of_neg (by simp [stop]),
    List.append_nil]

theorem dropWhile_blank {p : Char → Bool} {text rest : List Char} (all : text.all p = true)
    (stop : p ' ' = false) : (text ++ ' ' :: rest).dropWhile p = ' ' :: rest := by
  rw [List.dropWhile_append_of_pos (List.all_eq_true.mp all), List.dropWhile_cons_of_neg (by simp [stop])]

theorem lexesTo_word {text : String} (identifier : isMachineIdentifier text = true)
    (notLet : text ≠ "let") : LexesTo text.toList (wordToken text) := by
  unfold isMachineIdentifier at identifier
  split at identifier
  · cases identifier
  next c others spelled =>
    rw [Bool.and_eq_true] at identifier
    have letter := isIdentStart_iff.mp identifier.1
    have notDigit : ¬ c.isDigit = true := by
      rw [isDigit_iff]
      omega
    refine ⟨c, others, spelled, isWhitespace_of_printed (by omega), fun size rest => ?_⟩
    have same : String.ofList (c :: others) = text := by rw [← spelled, String.ofList_toList]
    rw [lexToken_word (.inr identifier.1), if_neg notDigit, lexIdent]
    simp only [takeWhile_blank identifier.2 (by decide), dropWhile_blank identifier.2 (by decide),
      same, if_neg notLet, wordToken]
    cases keywordOf text with
    | none => rfl
    | some word => rfl

theorem lexesTo_number (value : UInt64) :
    LexesTo (Nat.toDigits 10 value.toNat) (.number value) := by
  cases digits : Nat.toDigits 10 value.toNat with
  | nil => exact absurd digits Nat.toDigits_ne_nil
  | cons c others =>
    have all : ∀ d ∈ c :: others, d.isDigit = true := by
      intro d mem
      rw [← digits] at mem
      exact Nat.isDigit_of_mem_toDigits (by decide) (by decide) mem
    rw [List.forall_mem_cons] at all
    have digit := isDigit_iff.mp all.1
    have numeral : numeralValue (c :: others) = value.toNat := by
      rw [← digits, numeralValue, ← Nat.ofDigitChars_eq_foldl, Nat.ofDigitChars_ten_toDigits]
    refine ⟨c, others, rfl, isWhitespace_of_printed (by omega), fun size rest => ?_⟩
    rw [lexToken_word (.inl all.1), if_pos all.1, lexNumber]
    have others := List.all_eq_true.mpr all.2
    simp only [takeWhile_blank others (by decide), dropWhile_blank others (by decide), numeral,
      if_pos value.toNat_lt, UInt64.ofNat_toNat]

theorem wordToken_keyword (word : Keyword) : wordToken (keywordText word) = .keyword word := by
  cases word <;> rfl

theorem lexesTo_token {kind : TokenKind} (printed : PrintedToken kind) :
    LexesTo (tokenText kind) kind := by
  cases kind with
  | ident name =>
    have word := lexesTo_word printed.1 printed.2.2
    rwa [wordToken, printed.2.1] at word
  | number value => exact lexesTo_number value
  | keyword word =>
    have spelled : reservedNameComponentSpelling (.keyword word) = some (keywordText word) := by
      cases word <;> rfl
    have text := reservedNameComponentSpelling_word spelled
    have read := lexesTo_word text.1 text.2
    rwa [wordToken_keyword] at read
  | fatArrow => exact ⟨'=', ['>'], rfl, by decide, fun _ _ => rfl⟩
  | colon => exact ⟨':', [], rfl, by decide, fun _ _ => rfl⟩
  | dot | lbrace | rbrace | lparen | rparen | comma | «at» =>
    exact ⟨_, [], rfl, by decide, fun _ _ => rfl⟩
  | colonEq | hole | namedHole | stringLiteral | comment | eof => exact printed.elim

/-- The text of a list of tokens, with a blank after each. -/
def tokensText (tokens : List TokenKind) : List Char :=
  tokens.flatMap fun kind => tokenText kind ++ [' ']

theorem lexFrom_print {size : Nat} {tokens : List TokenKind}
    (printed : ∀ kind ∈ tokens, PrintedToken kind) :
    lexFrom size (tokensText tokens) = .ok (tokens ++ [.eof]) := by
  induction tokens with
  | nil =>
    rw [tokensText, List.flatMap_nil, lexFrom]
    rfl
  | cons kind tokens ih =>
    rw [List.forall_mem_cons] at printed
    obtain ⟨c, others, text, notBlank, read⟩ := lexesTo_token printed.1
    have blank : lexFrom size (' ' :: tokensText tokens) = .ok (tokens ++ [.eof]) := by
      rw [lexFrom, if_pos (by decide)]
      exact ih printed.2
    have input : tokensText (kind :: tokens) = c :: (others ++ ' ' :: tokensText tokens) := by
      rw [tokensText, List.flatMap_cons, text]
      simp [tokensText]
    rw [input, lexFrom, if_neg (by simp [notBlank])]
    split
    next error failed =>
      rw [read] at failed
      cases failed
    next found rest lexed =>
      rw [read] at lexed
      cases lexed
      rw [blank]
      rfl

/-! ### The tokens of a term are printed -/

theorem levelTokens_printed {level : MachineLevel} (spelled : level.Spelled lexedSpelling) :
    ∀ kind ∈ levelTokens level, PrintedToken kind := by
  induction level with
  | nat value => simp [levelTokens, PrintedToken]
  | param name =>
    have named : LexedIdent name := spelled
    simpa [levelTokens, PrintedToken] using named
  | succ level ih => simpa [levelTokens, PrintedToken] using ih spelled
  | max lhs rhs ihl ihr =>
    simp only [levelTokens, List.mem_cons, List.mem_append]
    rintro kind (rfl | mem | mem)
    · trivial
    · exact ihl spelled.1 kind mem
    · exact ihr spelled.2 kind mem
  | imax lhs rhs ihl ihr =>
    simp only [levelTokens, List.mem_cons, List.mem_append]
    rintro kind (rfl | mem | mem)
    · trivial
    · exact ihl spelled.1 kind mem
    · exact ihr spelled.2 kind mem

theorem wordToken_printed {text : String}
    (h : isMachineIdentifier text = true ∧ text ≠ "let") : PrintedToken (wordToken text) := by
  unfold wordToken
  split
  · trivial
  next notKeyword => exact ⟨h.1, notKeyword, h.2⟩

theorem nameTokens_printed {parts : List String} (spelled : SpelledParts lexedSpelling parts) :
    ∀ kind ∈ nameTokens parts, PrintedToken kind := by
  cases parts with
  | nil => simp [nameTokens]
  | cons head components =>
    simp only [nameTokens, componentTokens, List.mem_cons, List.mem_flatMap, List.not_mem_nil,
      or_false]
    rintro kind (rfl | ⟨component, mem, rfl | rfl⟩)
    · exact spelled.1
    · trivial
    · exact wordToken_printed (spelled.2 component mem)

theorem argsTokens_printed
    (spelled : SpelledArgs lexedSpelling args) : ∀ kind ∈ argsTokens args, PrintedToken kind := by
  match args with
  | none => simp [argsTokens]
  | some [] => simp [argsTokens]
  | some (first :: others) =>
    have levels := List.forall_mem_cons.mp spelled.2
    simp only [argsTokens, argTokens, List.mem_cons, List.mem_append, List.mem_flatMap,
      List.not_mem_nil, or_false]
    rintro kind (rfl | rfl | mem | ⟨level, mem, rfl | inside⟩ | rfl)
    · trivial
    · trivial
    · exact levelTokens_printed levels.1 kind mem
    · trivial
    · exact levelTokens_printed (levels.2 level mem) kind inside
    · trivial

mutual

theorem termTokens_printed (term : MachineTerm) (spelled : term.Spelled lexedSpelling) :
    ∀ kind ∈ termTokens term, PrintedToken kind := by
  cases term with
  | ident name args mode =>
    rw [MachineTerm.Spelled] at spelled
    have names := nameTokens_printed spelled.2.1
    have levels := argsTokens_printed spelled.2.2
    cases mode with
    | false => simpa [termTokens, or_imp, forall_and] using ⟨names, levels⟩
    | true => simpa [termTokens, or_imp, forall_and, PrintedToken] using ⟨names, levels⟩
  | «local» name => simp [termTokens]
  | prop => simp [termTokens, PrintedToken]
  | type level | sort level =>
    rw [MachineTerm.Spelled] at spelled
    simpa [termTokens, PrintedToken] using levelTokens_printed spelled
  | app func arg =>
    rw [MachineTerm.Spelled] at spelled
    have first := termTokens_printed func spelled.1
    have second := termTokens_printed arg spelled.2
    simpa [termTokens, or_imp, forall_and, PrintedToken] using ⟨first, second⟩
  | lam binders body | pi binders body =>
    rw [MachineTerm.Spelled] at spelled
    have list := binderTokens_printed binders spelled.2.1
    have last := termTokens_printed body spelled.2.2
    simpa [termTokens, or_imp, forall_and, PrintedToken] using ⟨list, last⟩
  | annot expr ty =>
    rw [MachineTerm.Spelled] at spelled
    have first := termTokens_printed expr spelled.1
    have second := termTokens_printed ty spelled.2
    simpa [termTokens, or_imp, forall_and, PrintedToken] using ⟨first, second⟩

theorem binderTokens_printed (binders : List MachineBinder)
    (spelled : SpelledBinders lexedSpelling binders) :
    ∀ kind ∈ binderTokens binders, PrintedToken kind := by
  match binders with
  | [] => simp [binderTokens]
  | .mk name ty :: binders =>
    rw [SpelledBinders] at spelled
    have type := termTokens_printed ty spelled.2.1
    have others := binderTokens_printed binders spelled.2.2
    have named : LexedIdent name := spelled.1
    simpa [binderTokens, or_imp, forall_and, PrintedToken] using ⟨named, type, others⟩

end

/-! ### Source that parses back -/

def printTerm (term : MachineTerm) : String := String.ofList (tokensText (termTokens term))

theorem parseMachineTerm_print (spelled : term.Spelled lexedSpelling) :
    parseMachineTerm (printTerm term) = .ok term := by
  have printed := termTokens_printed term spelled
  have lexed : lex (printTerm term) = .ok (termTokens term ++ [.eof]) := by
    rw [lex, printTerm, String.toList_ofList]
    exact lexFrom_print printed
  have noComment : ∀ kind ∈ termTokens term ++ [TokenKind.eof], decide (kind ≠ .comment) = true := by
    intro kind mem
    rcases List.mem_append.mp mem with mem | mem
    · have := printed kind mem
      cases kind <;> simp_all [PrintedToken]
    · simp_all
  have read := parseTerm_print term spelled [.eof] (.inr rfl)
  simp only [parseMachineTerm, Result.bind_eq_ok]
  refine ⟨_, lexed, (term, [.eof]), ?_, (), by simp [peekKind], rfl⟩
  rw [List.filter_eq_self.mpr noComment]
  exact read

end NpaCore.Frontend
