import NpaCore.Frontend.Language
import NpaCore.Frontend.Lexemes

/-!
# The two lexers side by side

The token-only lexer cuts every source into its lexemes, and `lex` reads these lexemes one by one.
They disagree on two words. The retired `let` is refused by `lex` alone, which is meant; `in` is
reserved for the token-only lexer and a name for `lex`. Beyond 2^32 bytes `lex` cuts the text of a
word, a numeral or a named hole out of the source at the wrong byte.

## Main result

`lexersAgree_iff`.
-/

namespace NpaCore.Frontend

open NpaCore.Parser

/-! ### Whole sources -/

/-- The tokens of some lexemes, the first of which starts at the offset. -/
def surfaceTokens : Nat → List LexemeText → List MachineSurfaceToken
  | _, [] => []
  | offset, (kind, text) :: others =>
    ⟨kind, String.ofList text, .of offset (offset + utf8Length text)⟩ ::
      surfaceTokens (offset + utf8Length text) others

/-- What `lex` makes of some lexemes. -/
def readLexemes (source : List Char) : Nat → List LexemeText → LexResult (List Spanned.Token)
  | _, [] => .ok []
  | offset, (kind, text) :: others =>
    if kind = .whitespace then readLexemes source (offset + utf8Length text) others
    else do
      let found ← readLexeme source offset (kind, text)
      let tokens ← readLexemes source (offset + utf8Length text) others
      .ok (⟨found, .of offset (offset + utf8Length text)⟩ :: tokens)

/-- A text that some lexemes of it do not exhaust. -/
inductive Stuck : List Char → Prop
  | here {ch : Char} {input : List Char} : Refused ch input → Stuck (ch :: input)
  | later {kind : MachineSurfaceTokenKind} {text after : List Char} : Lexeme kind text after →
    Stuck after → Stuck (text ++ after)

theorem lexemes_or_stuck (input : List Char) : (∃ lexemes, Lexemes input lexemes) ∨ Stuck input := by
  induction size : input.length using Nat.strong_induction_on generalizing input with
  | _ count ih =>
    cases input with
    | nil => exact .inl ⟨[], .nil⟩
    | cons ch input =>
      rcases lexeme_or_refused ch input with ⟨kind, text, after, whole, lexeme⟩ | refused
      · have shorter : after.length < count := by
          have := List.length_pos_iff.mpr lexeme.ne_nil
          rw [← size, whole, List.length_append]
          omega
        rw [whole]
        rcases ih _ shorter after rfl with ⟨lexemes, split⟩ | stuck
        · exact .inl ⟨_, .cons lexeme split⟩
        · exact .inr (.later lexeme stuck)
      · exact .inr (.here refused)

section Turns

variable {τ ε α : Type} {step : Parser τ ε α} {turns : Nat} {input rest : List τ}

theorem turns_nil : whileAheadN (! ·.isEmpty) step turns [] = .ok ([], []) := by
  cases turns <;> rfl

theorem turns_ok {a : α} (some : input ≠ []) (ok : step input = .ok (a, rest)) :
    whileAheadN (! ·.isEmpty) step (turns + 1) input = (do
      let found ← whileAheadN (! ·.isEmpty) step turns rest
      .ok (a :: found.1, found.2)) := by
  obtain ⟨first, input, rfl⟩ := List.exists_cons_of_ne_nil some
  rw [whileAheadN, ahead_bind, List.isEmpty_cons, Bool.not_false, if_pos rfl, bind_of_ok ok]
  change Parser.bind _ _ rest = _
  unfold Parser.bind
  cases whileAheadN (! ·.isEmpty) step turns rest <;> rfl

theorem turns_error {error : ε} (some : input ≠ []) (stopped : step input = .error error) :
    whileAheadN (! ·.isEmpty) step (turns + 1) input = .error error := by
  obtain ⟨first, input, rfl⟩ := List.exists_cons_of_ne_nil some
  rw [whileAheadN, ahead_bind, List.isEmpty_cons, Bool.not_false, if_pos rfl]
  change Parser.bind _ _ _ = _
  unfold Parser.bind
  rw [stopped]

end Turns

section Runs

variable {before input : List Char} {lexemes : List LexemeText}

theorem charIndices_length (offset : Nat) (text : List Char) :
    (charIndices offset text).length = text.length := by
  induction text generalizing offset with
  | nil => rfl
  | cons ch text ih => rw [charIndices, List.length_cons, List.length_cons, ih]

theorem charIndices_ne_nil {offset : Nat} {text after : List Char} (some : text ≠ []) :
    charIndices offset (text ++ after) ≠ [] := by
  cases text with
  | nil => exact absurd rfl some
  | cons ch text => exact List.cons_ne_nil _ _

/-- The token-only lexer finds the lexemes of a source. -/
theorem surface_run (split : Lexemes input lexemes) {turns : Nat} (enough : input.length ≤ turns) :
    whileAheadN (! ·.isEmpty) (surfaceTurn (before ++ input)) turns
        (charIndices (utf8Length before) input) =
      .ok ((surfaceTokens (utf8Length before) lexemes).map some, []) := by
  induction split generalizing before turns with
  | nil => exact turns_nil
  | @cons kind text after others lexeme _ ih =>
    have some := lexeme.ne_nil
    have longer := List.length_pos_iff.mpr some
    rw [List.length_append] at enough
    obtain ⟨turns, rfl⟩ : ∃ less, turns = less + 1 := ⟨turns - 1, by omega⟩
    have rest := @ih (before ++ text) turns (by omega)
    rw [utf8Length_append, List.append_assoc] at rest
    rw [turns_ok (charIndices_ne_nil some) (surfaceTurn_lexeme lexeme), rest]
    rfl

theorem surface_stuck (stuck : Stuck input) {turns : Nat} (enough : input.length ≤ turns) :
    ∃ stopped, whileAheadN (! ·.isEmpty) (surfaceTurn (before ++ input)) turns
      (charIndices (utf8Length before) input) = .error stopped := by
  induction stuck generalizing before turns with
  | here refused =>
    obtain ⟨turns, rfl⟩ : ∃ less, turns = less + 1 := ⟨turns - 1, by simp at enough; omega⟩
    obtain ⟨diagnostic, failed⟩ := @surfaceTurn_refused _ before _ refused
    exact ⟨_, turns_error (List.cons_ne_nil _ _) failed⟩
  | @later kind text after lexeme _ ih =>
    have some := lexeme.ne_nil
    have longer := List.length_pos_iff.mpr some
    rw [List.length_append] at enough
    obtain ⟨turns, rfl⟩ : ∃ less, turns = less + 1 := ⟨turns - 1, by omega⟩
    obtain ⟨stopped, rest⟩ := @ih (before ++ text) turns (by omega)
    rw [utf8Length_append, List.append_assoc] at rest
    exact ⟨stopped, by
      rw [turns_ok (charIndices_ne_nil some) (surfaceTurn_lexeme lexeme), rest]
      rfl⟩

/-! ### Borders -/

/-- A digit does not follow a digit across a border. -/
def Bordered (before input : List Char) : Prop :=
  ∀ x ∈ before.getLast?, ∀ y ∈ input.head?, y.isDigit = true → x.isDigit = false

theorem head_dropWhile_false {p : Char → Bool} {input : List Char} :
    ∀ y ∈ (input.dropWhile p).head?, p y = false := by
  induction input with
  | nil => nofun
  | cons c input ih =>
    rw [List.dropWhile_cons]
    split
    · exact ih
    · next holds =>
      intro y mem
      cases mem
      simpa using holds

theorem isIdentContinue_of_digit {ch : Char} (digit : ch.isDigit = true) :
    isIdentContinue ch = true := by
  simp [isIdentContinue, Char.isAlphanum, digit]

/-- Words and numerals take every digit that follows, and the other lexemes end in no digit. -/
theorem Lexeme.bordered {kind : MachineSurfaceTokenKind} {text after : List Char}
    (lexeme : Lexeme kind text after) : Bordered text after := by
  intro x last y first digit
  cases lexeme with
  | whitespace blank =>
    rename_i ch input
    have every : ∀ c ∈ ch :: input.takeWhile isWhitespace, isWhitespace c = true := by
      rintro c (_ | ⟨_, mem⟩)
      · exact blank
      · exact List.all_eq_true.mp List.all_takeWhile c mem
    by_contra other
    have isBlank := every x (List.mem_of_getLast? last)
    rw [blank_of_digit (by simpa using other)] at isBlank
    cases isBlank
  | comment =>
    have newline := head_dropWhile_false y first
    simp only [decide_eq_false_iff_not, not_not] at newline
    rw [newline] at digit
    cases digit
  | stringLiteral =>
    rw [← List.cons_append, List.getLast?_append_of_ne_nil _ (List.cons_ne_nil _ _)] at last
    cases last
    rfl
  | dot =>
    cases last
    rfl
  | single single =>
    cases last
    rcases singleKind_cases single with rfl | rfl | rfl | rfl | rfl | rfl | rfl
    all_goals rfl
  | colon | colonEq | fatArrow | hole =>
    cases last
    rfl
  | namedHole | word =>
    have stop := head_dropWhile_false y first
    rw [isIdentContinue_of_digit digit] at stop
    cases stop
  | natural =>
    have stop := head_dropWhile_false y first
    rw [digit] at stop
    cases stop

theorem Bordered.next {kind : MachineSurfaceTokenKind} {text after : List Char}
    (lexeme : Lexeme kind text after) : Bordered (before ++ text) after := by
  rw [Bordered, List.getLast?_append_of_ne_nil _ lexeme.ne_nil]
  exact lexeme.bordered

/-! ### The runs of `lex` -/

theorem lexTurn_dark {ch : Char} {source : List Char} {offset : Nat} {chars : CharIndices}
    (dark : isWhitespace ch = false) : Spanned.lexTurn source ((offset, ch) :: chars) = (do
      let found ← Spanned.lexToken source offset ch chars
      .ok (some found.1, found.2)) := by
  rw [Spanned.lexTurn, if_neg (by simp [dark])]

/-- Only whitespace begins with whitespace. -/
theorem Lexeme.dark {kind : MachineSurfaceTokenKind} {ch : Char} {rest after : List Char}
    (lexeme : Lexeme kind (ch :: rest) after) (other : kind ≠ .whitespace) :
    isWhitespace ch = false := by
  cases lexeme with
  | whitespace => exact absurd rfl other
  | single single =>
    rcases singleKind_cases single with rfl | rfl | rfl | rfl | rfl | rfl | rfl
    all_goals decide
  | natural digit => exact blank_of_digit digit
  | word letter => exact blank_of_letter letter
  | _ => decide

theorem Lexeme.blank {kind : MachineSurfaceTokenKind} {text after : List Char}
    (lexeme : Lexeme kind text after) (blank : kind = .whitespace) :
    ∀ c ∈ text, isWhitespace c = true := by
  cases lexeme with
  | whitespace first =>
    rintro c (_ | ⟨_, mem⟩)
    · exact first
    · exact List.all_eq_true.mp List.all_takeWhile c mem
  | word =>
    rw [wordKind] at blank
    split at blank <;> cases blank
  | _ => cases blank

theorem refused_dark {ch : Char} (refused : Refused ch input) : isWhitespace ch = false := by
  cases refused with
  | tooLarge digit => exact blank_of_digit digit
  | foreign blank => exact blank
  | _ => decide

/-- What a run of `lex` has made. -/
def lexRun (source : List Char) (turns : Nat) (chars : CharIndices) :
    LexResult (List Spanned.Token) := do
  let found ← whileAheadN (! ·.isEmpty) (Spanned.lexTurn source) turns chars
  .ok found.1.reduceOption

theorem lexRun_blanks {source : List Char} {turns offset : Nat} {blanks after : List Char}
    (blank : ∀ c ∈ blanks, isWhitespace c = true) :
    lexRun source (turns + blanks.length) (charIndices offset (blanks ++ after)) =
      lexRun source turns (charIndices (offset + utf8Length blanks) after) := by
  induction blanks generalizing offset with
  | nil => rfl
  | cons c blanks ih =>
    obtain ⟨here, others⟩ := List.forall_mem_cons.mp blank
    have turn : Spanned.lexTurn source (charIndices offset (c :: (blanks ++ after))) =
        .ok (none, charIndices (offset + c.utf8Size) (blanks ++ after)) := by
      rw [charIndices, Spanned.lexTurn, if_pos here]
    have some : charIndices offset (c :: (blanks ++ after)) ≠ [] := List.cons_ne_nil _ _
    rw [List.length_cons, ← Nat.add_assoc, List.cons_append, utf8Length_cons, ← Nat.add_assoc,
      ← ih others, lexRun, turns_ok some turn, lexRun]
    cases whileAheadN (! ·.isEmpty) (Spanned.lexTurn source) (turns + blanks.length)
        (charIndices (offset + c.utf8Size) (blanks ++ after)) with
    | error stopped => rfl
    | ok found => rfl

theorem lexTurn_lexeme {kind : MachineSurfaceTokenKind} {text after : List Char}
    (lexeme : Lexeme kind text after) (other : kind ≠ .whitespace) :
    Spanned.lexTurn (before ++ (text ++ after)) (charIndices (utf8Length before) (text ++ after)) =
      (do
        let found ← readLexeme (before ++ (text ++ after)) (utf8Length before) (kind, text)
        .ok (some ⟨found, .of (utf8Length before) (utf8Length before + utf8Length text)⟩,
          charIndices (utf8Length before + utf8Length text) after)) := by
  obtain ⟨ch, text, rfl⟩ := List.exists_cons_of_ne_nil lexeme.ne_nil
  have token := @lexToken_lexeme ch before text after kind lexeme other
  rw [List.cons_append] at token ⊢
  rw [charIndices, lexTurn_dark (lexeme.dark other), token]
  cases readLexeme (before ++ ch :: (text ++ after)) (utf8Length before) (kind, ch :: text) <;> rfl

/-- `lex` reads the lexemes of a source one by one. -/
theorem lex_run (split : Lexemes input lexemes) {turns : Nat} (enough : input.length ≤ turns) :
    lexRun (before ++ input) turns (charIndices (utf8Length before) input) =
      readLexemes (before ++ input) (utf8Length before) lexemes := by
  induction split generalizing before turns with
  | nil =>
    rw [lexRun, charIndices, turns_nil]
    rfl
  | @cons kind text after others lexeme _ ih =>
    have some := lexeme.ne_nil
    have longer := List.length_pos_iff.mpr some
    rw [List.length_append] at enough
    rw [readLexemes]
    split
    · next blank =>
      obtain ⟨less, rfl⟩ : ∃ less, turns = less + text.length :=
        ⟨turns - text.length, by omega⟩
      have rest := @ih (before ++ text) less (by omega)
      rw [utf8Length_append, List.append_assoc] at rest
      rw [lexRun_blanks (lexeme.blank blank), rest]
    · next other =>
      obtain ⟨turns, rfl⟩ : ∃ less, turns = less + 1 := ⟨turns - 1, by omega⟩
      have rest := @ih (before ++ text) turns (by omega)
      rw [utf8Length_append, List.append_assoc] at rest
      have turn := @lexTurn_lexeme before kind text after lexeme other
      rw [lexRun]
      cases read : readLexeme (before ++ (text ++ after)) (utf8Length before) (kind, text) with
      | error stopped =>
        rw [read, Result.error_bind] at turn
        rw [turns_error (charIndices_ne_nil some) turn]
        rfl
      | ok found =>
        rw [read, Result.ok_bind] at turn
        rw [Result.ok_bind, ← rest, turns_ok (charIndices_ne_nil some) turn, lexRun]
        cases whileAheadN (! ·.isEmpty) (Spanned.lexTurn (before ++ (text ++ after))) turns
            (charIndices (utf8Length before + utf8Length text) after) with
        | error stopped => rfl
        | ok found => rfl

/-- `lex` stops in a text that its lexemes do not exhaust. -/
theorem lex_stuck (stuck : Stuck input) (border : Bordered before input) {turns : Nat}
    (enough : input.length ≤ turns) :
    ∃ stopped, lexRun (before ++ input) turns (charIndices (utf8Length before) input) =
      .error stopped := by
  induction stuck generalizing before turns with
  | @here ch input refused =>
    obtain ⟨turns, rfl⟩ : ∃ less, turns = less + 1 := ⟨turns - 1, by simp at enough; omega⟩
    obtain ⟨stopped, failed⟩ := lexToken_refused refused fun x last => border x last ch rfl
    have turn : Spanned.lexTurn (before ++ ch :: input) (charIndices (utf8Length before) (ch :: input)) =
        .error stopped := by
      rw [charIndices, lexTurn_dark (refused_dark refused), failed]
      rfl
    have some : charIndices (utf8Length before) (ch :: input) ≠ [] := List.cons_ne_nil _ _
    exact ⟨stopped, by rw [lexRun, turns_error some turn]; rfl⟩
  | @later kind text after lexeme _ ih =>
    have some := lexeme.ne_nil
    have longer := List.length_pos_iff.mpr some
    rw [List.length_append] at enough
    by_cases blank : kind = .whitespace
    · obtain ⟨less, rfl⟩ : ∃ less, turns = less + text.length :=
        ⟨turns - text.length, by omega⟩
      obtain ⟨stopped, rest⟩ := @ih (before ++ text) (.next lexeme) less (by omega)
      rw [utf8Length_append, List.append_assoc] at rest
      exact ⟨stopped, by rw [lexRun_blanks (lexeme.blank blank), rest]⟩
    · obtain ⟨turns, rfl⟩ : ∃ less, turns = less + 1 := ⟨turns - 1, by omega⟩
      obtain ⟨stopped, rest⟩ := @ih (before ++ text) (.next lexeme) turns (by omega)
      rw [utf8Length_append, List.append_assoc] at rest
      have turn := @lexTurn_lexeme before kind text after lexeme blank
      cases read : readLexeme (before ++ (text ++ after)) (utf8Length before) (kind, text) with
      | error early =>
        rw [read, Result.error_bind] at turn
        exact ⟨early, by rw [lexRun, turns_error (charIndices_ne_nil some) turn]; rfl⟩
      | ok found =>
        rw [read, Result.ok_bind] at turn
        refine ⟨stopped, ?_⟩
        rw [lexRun] at rest ⊢
        rw [turns_ok (charIndices_ne_nil some) turn]
        cases later : whileAheadN (! ·.isEmpty) (Spanned.lexTurn (before ++ (text ++ after))) turns
            (charIndices (utf8Length before + utf8Length text) after) with
        | error stopped' =>
          rw [later] at rest
          exact rest
        | ok found =>
          rw [later] at rest
          cases rest

end Runs

theorem reduceOption_def {α : Type} (items : List (Option α)) :
    items.reduceOption = items.filterMap id := rfl

variable {source : String} {lexemes : List LexemeText}

theorem lexMachineSurfaceTokens_lexemes (split : Lexemes source.toList lexemes) :
    lexMachineSurfaceTokens source = .ok (surfaceTokens 0 lexemes) := by
  have ran : whileAheadN (! ·.isEmpty) (surfaceTurn source.toList) source.toList.length
      (charIndices 0 source.toList) = .ok ((surfaceTokens 0 lexemes).map some, []) :=
    @surface_run [] _ _ split _ (Nat.le_refl _)
  rw [lexMachineSurfaceTokens, whileAhead]
  dsimp only
  rw [charIndices_length, ran, Result.ok_bind, reduceOption_def, List.filterMap_map]
  simp

theorem lexMachineSurfaceTokens_stuck (stuck : Stuck source.toList) :
    ∃ stopped, lexMachineSurfaceTokens source = .error stopped := by
  obtain ⟨stopped, ran⟩ : ∃ stopped, whileAheadN (! ·.isEmpty) (surfaceTurn source.toList)
      source.toList.length (charIndices 0 source.toList) = .error stopped :=
    @surface_stuck [] _ stuck _ (Nat.le_refl _)
  refine ⟨stopped, ?_⟩
  rw [lexMachineSurfaceTokens, whileAhead]
  dsimp only
  rw [charIndices_length, ran]
  rfl

/-- The last token of `lex`. -/
def eofToken (source : List Char) : Spanned.Token :=
  ⟨.eof, .of (utf8Length source) (utf8Length source)⟩

theorem lex_eq_lexRun (source : String) : Spanned.lex source = (do
    let tokens ← lexRun source.toList source.toList.length (charIndices 0 source.toList)
    .ok (tokens ++ [eofToken source.toList])) := by
  rw [Spanned.lex, whileAhead]
  dsimp only
  rw [charIndices_length, lexRun]
  cases whileAheadN (! ·.isEmpty) (Spanned.lexTurn source.toList) source.toList.length
      (charIndices 0 source.toList) <;> rfl

theorem lex_lexemes (split : Lexemes source.toList lexemes) : Spanned.lex source = (do
      let tokens ← readLexemes source.toList 0 lexemes
      .ok (tokens ++ [eofToken source.toList])) := by
  have ran : lexRun source.toList source.toList.length (charIndices 0 source.toList) =
      readLexemes source.toList 0 lexemes := @lex_run [] _ _ split _ (Nat.le_refl _)
  rw [lex_eq_lexRun, ran]

theorem lex_stopped (stuck : Stuck source.toList) :
    ∃ stopped, Spanned.lex source = .error stopped := by
  obtain ⟨stopped, ran⟩ : ∃ stopped, lexRun source.toList source.toList.length
      (charIndices 0 source.toList) = .error stopped :=
    @lex_stuck [] _ stuck nofun _ (Nat.le_refl _)
  refine ⟨stopped, ?_⟩
  rw [lex_eq_lexRun, ran]
  rfl

/-! ### Near and far lexemes -/

/-- What `lex` makes of a lexeme that it cuts out rightly. -/
def readText : LexemeText → LexResult TokenKind
  | (.identLike, text) | (.reserved, text) => readWord text
  | (.natural, text) => do
    let value ← Result.okOr (parseU64 text)
      (.refused (.parse "universe level numeral is too large"))
    .ok (.number value)
  | (.punctuation, text) =>
    match holeName text with
    | some name => .ok (.namedHole (String.ofList name))
    | none => .ok (punctuationToken text)
  | (.dot, _) => .ok .dot
  | (.stringLiteral, _) => .ok .stringLiteral
  | (.comment, _) => .ok .comment
  | (.whitespace, _) | (.externalCommand, _) => .error .panicked

/-- The lexemes that are cut out of the source: words, numerals and named holes. -/
def IsCut : LexemeText → Bool
  | (.identLike, _) | (.reserved, _) | (.natural, _) => true
  | (.punctuation, text) => (holeName text).isSome
  | _ => false

section Reading

variable {before text after : List Char} {kind : MachineSurfaceTokenKind}

theorem readLexeme_plain {source : List Char} {offset : Nat} (plain : IsCut (kind, text) = false) :
    readLexeme source offset (kind, text) = readText (kind, text) := by
  cases kind with
  | identLike | reserved | natural => cases plain
  | punctuation =>
    rw [IsCut, Option.isSome_eq_false_iff, Option.isNone_iff_eq_none] at plain
    rw [readLexeme, readText, plain]
  | _ => rfl

theorem holeName_eq_some {name : List Char} (h : holeName text = some name) :
    text = '?' :: name ∧ name ≠ [] := by
  unfold holeName at h
  split at h
  · cases h
    exact ⟨rfl, List.cons_ne_nil _ _⟩
  · cases h

theorem readLexeme_near (near : utf8Length before < 2 ^ 32) :
    readLexeme (before ++ (text ++ after)) (utf8Length before) (kind, text) =
      readText (kind, text) := by
  have whole := slice_piece before text after
  cases kind with
  | identLike | reserved | natural =>
    rw [readLexeme, readText, Nat.mod_eq_of_lt near, whole, Result.ok_bind]
  | punctuation =>
    rw [readLexeme, readText]
    cases hole : holeName text with
    | none => rfl
    | some name =>
      obtain ⟨rfl, _⟩ := holeName_eq_some hole
      have inner : slice (before ++ (['?'] ++ (name ++ after))) (utf8Length before + 1)
          (utf8Length before + utf8Length ('?' :: name)) = .ok name := by
        have piece := slice_piece (before ++ ['?']) name after
        rw [List.append_assoc, utf8Length_append, Nat.add_assoc] at piece
        exact piece
      dsimp only
      rw [Nat.mod_eq_of_lt near]
      change (slice (before ++ (['?'] ++ (name ++ after))) _ _ >>= _) = _
      rw [inner]
      rfl
  | _ => rfl

/-! ### What a token says -/

/-- The token says what its text says. -/
def TokenKind.SpelledAs (text : List Char) : TokenKind → Prop
  | .ident name => name.toList = text
  | .number value => parseU64 text = some value
  | .keyword word => keywordOf (String.ofList text) = some word
  | .namedHole name => text = '?' :: name.toList
  | .dot => text = ['.']
  | .lbrace => text = ['{']
  | .rbrace => text = ['}']
  | .lparen => text = ['(']
  | .rparen => text = [')']
  | .colon => text = [':']
  | .colonEq => text = [':', '=']
  | .comma => text = [',']
  | .fatArrow => text = ['=', '>']
  | .at => text = ['@']
  | .hole => text = ['_'] ∨ text = ['?']
  | .stringLiteral => text.head? = some '"'
  | .comment => ['-', '-'] <+: text
  | .eof => False

def TokenKind.IsKeyword (kind : TokenKind) : Prop := ∃ word, kind = .keyword word

def TokenKind.IsIdent (kind : TokenKind) : Prop := ∃ name, kind = .ident name

def letWord : LexemeText := (.reserved, "let".toList)

def inWord : LexemeText := (.reserved, "in".toList)

theorem ofList_eq_iff {word : String} : String.ofList text = word ↔ text = word.toList := by
  constructor
  · rintro rfl
    rw [String.toList_ofList]
  · rintro rfl
    rw [String.ofList_toList]

/-- Of the words other than `let`, the lexers classify all but `in` alike. -/
theorem read_word (notLet : (wordKind text, text) ≠ letWord) :
    ∃ found, readText (wordKind text, text) = .ok found ∧ found.SpelledAs text ∧
      ((wordKind text, text) ≠ inWord →
        (wordKind text = .reserved ↔ found.IsKeyword) ∧
        (wordKind text = .identLike ↔ found.IsIdent)) := by
  have read : readText (wordKind text, text) = readWord text := by
    rw [wordKind]
    split <;> rfl
  have written : String.ofList text ≠ "let" := by
    intro same
    rw [ofList_eq_iff] at same
    exact notLet (by rw [same]; decide)
  rw [read, readWord, if_neg written]
  cases keyword : keywordOf (String.ofList text) with
  | some word =>
    have reserved : isReservedSpelling (String.ofList text) = true := by
      by_contra other
      rw [Bool.not_eq_true, isReservedSpelling_eq_false, keyword] at other
      cases other.1
    have kind : wordKind text = .reserved := by rw [wordKind, if_pos reserved]
    refine ⟨.keyword word, rfl, keyword, fun _ => ?_⟩
    rw [kind]
    exact ⟨iff_of_true rfl ⟨word, rfl⟩, iff_of_false (by simp) (by rintro ⟨_, h⟩; cases h)⟩
  | none =>
    refine ⟨.ident (String.ofList text), rfl, String.toList_ofList, fun notIn => ?_⟩
    have written' : String.ofList text ≠ "in" := by
      intro same
      rw [ofList_eq_iff] at same
      exact notIn (by rw [same]; decide)
    have free := isReservedSpelling_eq_false.mpr ⟨keyword, written, written'⟩
    have kind : wordKind text = .identLike := by rw [wordKind, if_neg (by simp [free])]
    rw [kind]
    exact ⟨iff_of_false (by simp) (by rintro ⟨_, h⟩; cases h), iff_of_true rfl ⟨_, rfl⟩⟩

/-- A lexeme that is cut out rightly and is not `let` makes a token; the two lexers classify it
    alike unless it is `in`. -/
theorem Lexeme.read (lexeme : Lexeme kind text after) (other : kind ≠ .whitespace)
    (notLet : (kind, text) ≠ letWord) : ∃ found, readText (kind, text) = .ok found ∧
      found.SpelledAs text ∧ ((kind, text) ≠ inWord →
        (kind = .reserved ↔ found.IsKeyword) ∧ (kind = .identLike ↔ found.IsIdent)) := by
  have plain : ∀ found : TokenKind, (∀ word, found ≠ .keyword word) → (∀ name, found ≠ .ident name) →
      kind ≠ .reserved → kind ≠ .identLike →
      (kind = .reserved ↔ found.IsKeyword) ∧ (kind = .identLike ↔ found.IsIdent) :=
    fun found noKeyword noIdent notReserved notIdent =>
      ⟨iff_of_false notReserved fun ⟨_, h⟩ => noKeyword _ h,
        iff_of_false notIdent fun ⟨_, h⟩ => noIdent _ h⟩
  cases lexeme with
  | whitespace => exact absurd rfl other
  | comment => exact ⟨.comment, rfl, ⟨_, rfl⟩, fun _ => plain _ nofun nofun nofun nofun⟩
  | stringLiteral => exact ⟨.stringLiteral, rfl, rfl, fun _ => plain _ nofun nofun nofun nofun⟩
  | dot => exact ⟨.dot, rfl, rfl, fun _ => plain _ nofun nofun nofun nofun⟩
  | single single =>
    rcases singleKind_cases single with rfl | rfl | rfl | rfl | rfl | rfl | rfl
    case inr.inr.inr.inr.inr.inr =>
      -- the hole has a second spelling
      exact ⟨.hole, rfl, .inl rfl, fun _ => plain _ nofun nofun nofun nofun⟩
    all_goals exact ⟨_, rfl, rfl, fun _ => plain _ nofun nofun nofun nofun⟩
  | colon => exact ⟨.colon, rfl, rfl, fun _ => plain _ nofun nofun nofun nofun⟩
  | colonEq => exact ⟨.colonEq, rfl, rfl, fun _ => plain _ nofun nofun nofun nofun⟩
  | fatArrow => exact ⟨.fatArrow, rfl, rfl, fun _ => plain _ nofun nofun nofun nofun⟩
  | hole => exact ⟨.hole, rfl, .inr rfl, fun _ => plain _ nofun nofun nofun nofun⟩
  | namedHole =>
    exact ⟨.namedHole _, rfl, by simp [TokenKind.SpelledAs],
      fun _ => plain _ nofun nofun nofun nofun⟩
  | natural digit value =>
    refine ⟨.number _, ?_, value, fun _ => plain _ nofun nofun nofun nofun⟩
    rw [readText, value]
    rfl
  | word _ => exact read_word notLet

/-- No keyword is long. -/
theorem keywordOf_short {word : String} {keyword : Keyword} (h : keywordOf word = some keyword) :
    word.toList.length ≤ 9 := by
  unfold keywordOf at h
  split at h
  case h_23 => cases h
  all_goals decide

/-- A word that is cut out beyond 2^32 bytes becomes a longer name. -/
theorem readWord_long {cut : List Char} (long : 9 < cut.length) :
    readWord cut = .ok (.ident (String.ofList cut)) := by
  have notLet : String.ofList cut ≠ "let" := by
    intro same
    rw [ofList_eq_iff] at same
    rw [same] at long
    exact absurd long (by decide)
  rw [readWord, if_neg notLet]
  cases keyword : keywordOf (String.ofList cut) with
  | none => rfl
  | some found =>
    have short := keywordOf_short keyword
    rw [String.toList_ofList] at short
    omega

section Far

variable (far : 2 ^ 32 ≤ utf8Length before)

include far

theorem far_word {cut : List Char}
    (h : slice (before ++ (text ++ after)) (utf8Length before % 2 ^ 32)
      (utf8Length before + utf8Length text) = .ok cut) :
    readWord cut = .ok (.ident (String.ofList cut)) ∧ cut ≠ text := by
  obtain ⟨start, extra, rfl, rfl, start_eq⟩ := cut_eq h
  have size : 2 ^ 32 ≤ utf8Length extra := by
    rw [utf8Length_append] at start_eq far
    have := Nat.mod_lt (utf8Length start + utf8Length extra) (Nat.two_pow_pos 32)
    omega
  have long := utf8Length_le extra
  constructor
  · apply readWord_long
    rw [List.length_append]
    omega
  · intro same
    have lengths := congrArg List.length same
    rw [List.length_append] at lengths
    omega

/-- A lexeme that is cut out beyond 2^32 bytes does not become its token. -/
theorem far_not_spelled (cutOut : IsCut (kind, text) = true)
    (border : kind = .natural → ∀ x ∈ before.getLast?, x.isDigit = false) (some : text ≠ [])
    {found : TokenKind}
    (h : readLexeme (before ++ (text ++ after)) (utf8Length before) (kind, text) = .ok found) :
    ¬ found.SpelledAs text := by
  cases kind with
  | identLike | reserved =>
    obtain ⟨cut, cut_ok, read⟩ := Result.bind_eq_ok.mp h
    obtain ⟨becomes, different⟩ := far_word far cut_ok
    rw [becomes] at read
    cases read
    intro spelled
    rw [TokenKind.SpelledAs, String.toList_ofList] at spelled
    exact different spelled
  | natural =>
    obtain ⟨cut, cut_ok, read⟩ := Result.bind_eq_ok.mp h
    obtain ⟨ch, rest, rfl⟩ := List.exists_cons_of_ne_nil some
    rw [parseU64_cut cut_ok (border rfl) far] at read
    cases read
  | punctuation =>
    rw [IsCut, Option.isSome_iff_exists] at cutOut
    obtain ⟨name, hole⟩ := cutOut
    rw [readLexeme, hole] at h
    obtain ⟨cut, cut_ok, read⟩ := Result.bind_eq_ok.mp h
    cases read
    intro spelled
    obtain ⟨_, _, _, _, stop⟩ := slice_eq_ok cut_ok
    rw [TokenKind.SpelledAs, String.toList_ofList] at spelled
    have size : utf8Length text = 1 + utf8Length cut := by
      rw [spelled, utf8Length_cons]
      rfl
    have := Nat.mod_lt (utf8Length before) (Nat.two_pow_pos 32)
    omega
  | _ => cases cutOut

theorem far_not_retired :
    readLexeme (before ++ (text ++ after)) (utf8Length before) (kind, text) ≠
      .error (.refused .removedTermLet) := by
  intro h
  cases kind with
  | identLike | reserved =>
    rw [readLexeme] at h
    cases cut_ok : slice (before ++ (text ++ after)) (utf8Length before % 2 ^ 32)
        (utf8Length before + utf8Length text) with
    | error stopped =>
      rw [cut_ok, slice_error cut_ok] at h
      cases h
    | ok cut =>
      rw [cut_ok, Result.ok_bind, (far_word far cut_ok).1] at h
      cases h
  | natural =>
    rw [readLexeme] at h
    cases cut_ok : slice (before ++ (text ++ after)) (utf8Length before % 2 ^ 32)
        (utf8Length before + utf8Length text) with
    | error stopped =>
      rw [cut_ok, slice_error cut_ok] at h
      cases h
    | ok cut =>
      rw [cut_ok, Result.ok_bind] at h
      cases value : parseU64 cut with
      | none =>
        rw [value] at h
        cases h
      | some value' =>
        rw [value] at h
        cases h
  | punctuation =>
    rw [readLexeme] at h
    cases hole : holeName text with
    | none =>
      rw [hole] at h
      cases h
    | some name =>
      rw [hole] at h
      dsimp only at h
      cases cut_ok : slice (before ++ (text ++ after)) (utf8Length before % 2 ^ 32 + 1)
          (utf8Length before + utf8Length text) with
      | error stopped =>
        rw [cut_ok, slice_error cut_ok] at h
        cases h
      | ok cut =>
        rw [cut_ok] at h
        cases h
  | _ => cases h

end Far

end Reading

/-! ### Agreement -/

/-- A token of `lex` and the token of the other lexer that it stands for. -/
structure Corresponds (token : MachineSurfaceToken) (read : Spanned.Token) : Prop where
  span : read.span = token.span
  spelled : read.kind.SpelledAs token.spelling.toList
  reserved : token.kind = .reserved ↔ read.kind.IsKeyword
  identLike : token.kind = .identLike ↔ read.kind.IsIdent

def MachineSurfaceToken.IsLet (token : MachineSurfaceToken) : Prop :=
  token.kind = .reserved ∧ token.spelling = "let"

/-- The tokens that are no whitespace. -/
def darkTokens (tokens : List MachineSurfaceToken) : List MachineSurfaceToken :=
  tokens.filter fun token => token.kind ≠ .whitespace

/-- Every span covers its text and begins where the one before it ends. -/
def Contiguous : Nat → List MachineSurfaceToken → Prop
  | _, [] => True
  | offset, token :: tokens =>
    token.span = .of offset (offset + utf8Length token.spelling.toList) ∧
      Contiguous (offset + utf8Length token.spelling.toList) tokens

/-- What the two lexers owe each other on a source. -/
structure LexersAgree (source : String) : Prop where
  lossless : ∀ tokens, lexMachineSurfaceTokens source = .ok tokens →
    tokens.flatMap (·.spelling.toList) = source.toList ∧ Contiguous 0 tokens
  succeed : (∃ read, Spanned.lex source = .ok read) ↔
    ∃ tokens, lexMachineSurfaceTokens source = .ok tokens ∧ ¬ ∃ token ∈ tokens, token.IsLet
  retired : ∀ tokens, lexMachineSurfaceTokens source = .ok tokens →
    (∃ token ∈ tokens, token.IsLet) → Spanned.lex source = .error (.refused .removedTermLet)
  correspond : ∀ tokens read, lexMachineSurfaceTokens source = .ok tokens →
    Spanned.lex source = .ok read → ∃ others, read = others ++ [eofToken source.toList] ∧
      List.Forall₂ Corresponds (darkTokens tokens) others

/-- The lexemes with the offsets where they start. -/
def placed : Nat → List LexemeText → List (Nat × LexemeText)
  | _, [] => []
  | offset, lexeme :: others =>
    (offset, lexeme) :: placed (offset + utf8Length lexeme.2) others

/-- A word `let` starts in the first 2^32 bytes, or no word is `in` and no word, numeral or named
    hole starts later. -/
def WordsAlike (source : List Char) : Prop :=
  ∀ lexemes, Lexemes source lexemes →
    (∃ entry ∈ placed 0 lexemes, entry.2 = letWord ∧ entry.1 < 2 ^ 32) ∨
    ∀ entry ∈ placed 0 lexemes, entry.2 ≠ inWord ∧ (IsCut entry.2 = true → entry.1 < 2 ^ 32)

section Sources

variable {before input : List Char} {lexemes : List LexemeText}

theorem surfaceTokens_flatMap (offset : Nat) (lexemes : List LexemeText) :
    (surfaceTokens offset lexemes).flatMap (·.spelling.toList) = lexemes.flatMap (·.2) := by
  induction lexemes generalizing offset with
  | nil => rfl
  | cons lexeme lexemes ih =>
    rw [surfaceTokens, List.flatMap_cons, List.flatMap_cons, ih, String.toList_ofList]

theorem surfaceTokens_contiguous (offset : Nat) (lexemes : List LexemeText) :
    Contiguous offset (surfaceTokens offset lexemes) := by
  induction lexemes generalizing offset with
  | nil => trivial
  | cons lexeme lexemes ih =>
    rw [surfaceTokens, Contiguous, String.toList_ofList]
    exact ⟨rfl, ih _⟩

theorem surfaceTokens_isLet (offset : Nat) (lexemes : List LexemeText) :
    (∃ token ∈ surfaceTokens offset lexemes, token.IsLet) ↔
      ∃ entry ∈ placed offset lexemes, entry.2 = letWord := by
  induction lexemes generalizing offset with
  | nil => simp [surfaceTokens, placed]
  | cons lexeme lexemes ih =>
    obtain ⟨kind, text⟩ := lexeme
    rw [surfaceTokens, placed, List.exists_mem_cons_iff, List.exists_mem_cons_iff, ih]
    apply or_congr_left
    rw [MachineSurfaceToken.IsLet, ofList_eq_iff, letWord, Prod.mk.injEq]

/-- Offsets grow. -/
theorem le_of_placed {offset : Nat} {entry : Nat × LexemeText}
    (mem : entry ∈ placed offset lexemes) : offset ≤ entry.1 := by
  induction lexemes generalizing offset with
  | nil => cases mem
  | cons lexeme lexemes ih =>
    rcases List.mem_cons.mp mem with rfl | later
    · exact Nat.le_refl _
    · have := ih later
      omega

/-- A word `let` in the first 2^32 bytes stops `lex`, which has read all that precedes it. -/
theorem read_let (split : Lexemes input lexemes)
    (low : ∃ entry ∈ placed (utf8Length before) lexemes, entry.2 = letWord ∧ entry.1 < 2 ^ 32) :
    readLexemes (before ++ input) (utf8Length before) lexemes =
      .error (.refused .removedTermLet) := by
  induction split generalizing before with
  | nil =>
    obtain ⟨entry, mem, _⟩ := low
    cases mem
  | @cons kind text after others lexeme _ ih =>
    obtain ⟨entry, mem, isLet, low⟩ := low
    have near : utf8Length before < 2 ^ 32 := Nat.lt_of_le_of_lt (le_of_placed mem) low
    rw [readLexemes]
    by_cases here : (kind, text) = letWord
    · cases here
      rw [if_neg nofun, readLexeme_near near]
      rfl
    · have later : entry ∈ placed (utf8Length (before ++ text)) others := by
        rw [utf8Length_append]
        rcases List.mem_cons.mp mem with rfl | later
        · exact absurd isLet here
        · exact later
      have rest := @ih (before ++ text) ⟨entry, later, isLet, low⟩
      rw [utf8Length_append, List.append_assoc] at rest
      split
      · exact rest
      · next other =>
        obtain ⟨found, found_ok, _⟩ := lexeme.read other here
        rw [readLexeme_near near, found_ok, Result.ok_bind, rest]
        rfl

/-- Only such a word makes `lex` refuse one. -/
theorem let_of_refused (split : Lexemes input lexemes)
    (refused : readLexemes (before ++ input) (utf8Length before) lexemes =
      .error (.refused .removedTermLet)) :
    ∃ entry ∈ placed (utf8Length before) lexemes, entry.2 = letWord ∧ entry.1 < 2 ^ 32 := by
  induction split generalizing before with
  | nil => cases refused
  | @cons kind text after others lexeme _ ih =>
    have later : readLexemes (before ++ (text ++ after)) (utf8Length before + utf8Length text)
        others = .error (.refused .removedTermLet) →
        ∃ entry ∈ placed (utf8Length before) ((kind, text) :: others),
          entry.2 = letWord ∧ entry.1 < 2 ^ 32 := by
      intro rest
      rw [← utf8Length_append, ← List.append_assoc] at rest
      obtain ⟨entry, mem, isLet⟩ := ih rest
      rw [utf8Length_append] at mem
      exact ⟨entry, List.mem_cons_of_mem _ mem, isLet⟩
    rw [readLexemes] at refused
    split at refused
    · exact later refused
    · next other =>
      cases read : readLexeme (before ++ (text ++ after)) (utf8Length before) (kind, text) with
      | ok found =>
        rw [read, Result.ok_bind] at refused
        apply later
        cases rest : readLexemes (before ++ (text ++ after)) (utf8Length before + utf8Length text)
            others with
        | ok tokens =>
          rw [rest] at refused
          cases refused
        | error stopped =>
          rw [rest] at refused
          exact refused
      | error stopped =>
        rw [read, Result.error_bind] at refused
        cases refused
        rcases Nat.lt_or_ge (utf8Length before) (2 ^ 32) with near | far
        · by_cases here : (kind, text) = letWord
          · exact ⟨_, List.mem_cons_self, here, near⟩
          · obtain ⟨found, found_ok, _⟩ := lexeme.read other here
            rw [readLexeme_near near, found_ok] at read
            cases read
        · exact absurd read (far_not_retired far)

theorem darkTokens_cons {token : MachineSurfaceToken} {tokens : List MachineSurfaceToken} :
    darkTokens (token :: tokens) =
      if token.kind = .whitespace then darkTokens tokens else token :: darkTokens tokens := by
  rw [darkTokens, List.filter_cons]
  by_cases blank : token.kind = .whitespace <;> simp [blank, darkTokens]

/-- Without `let` and `in`, and with every cut near, `lex` reads every lexeme for what it is. -/
theorem read_alike (split : Lexemes input lexemes)
    (alike : ∀ entry ∈ placed (utf8Length before) lexemes, entry.2 ≠ letWord ∧ entry.2 ≠ inWord ∧
      (IsCut entry.2 = true → entry.1 < 2 ^ 32)) :
    ∃ tokens, readLexemes (before ++ input) (utf8Length before) lexemes = .ok tokens ∧
      List.Forall₂ Corresponds (darkTokens (surfaceTokens (utf8Length before) lexemes)) tokens := by
  induction split generalizing before with
  | nil => exact ⟨[], rfl, .nil⟩
  | @cons kind text after others lexeme _ ih =>
    rw [placed, List.forall_mem_cons] at alike
    obtain ⟨⟨notLet, notIn, near⟩, later⟩ := alike
    rw [← utf8Length_append] at later
    obtain ⟨tokens, tokens_ok, correspond⟩ := ih later
    rw [utf8Length_append, List.append_assoc] at tokens_ok
    rw [utf8Length_append] at correspond
    rw [readLexemes, surfaceTokens, darkTokens_cons]
    dsimp only
    split
    · exact ⟨tokens, tokens_ok, correspond⟩
    · next other =>
      obtain ⟨found, found_ok, spelled, classified⟩ := lexeme.read other notLet
      have read : readLexeme (before ++ (text ++ after)) (utf8Length before) (kind, text) =
          .ok found := by
        cases cutOut : IsCut (kind, text) with
        | false => rw [readLexeme_plain cutOut, found_ok]
        | true => rw [readLexeme_near (near cutOut), found_ok]
      obtain ⟨reserved, identLike⟩ := classified notIn
      refine ⟨_, by rw [read, Result.ok_bind, tokens_ok, Result.ok_bind], .cons ?_ correspond⟩
      exact ⟨rfl, by rwa [String.toList_ofList], reserved, identLike⟩

theorem Lexeme.digit_of_natural {kind : MachineSurfaceTokenKind} {text after : List Char}
    (lexeme : Lexeme kind text after) (isNatural : kind = .natural) :
    ∃ ch rest, text = ch :: rest ∧ ch.isDigit = true := by
  cases lexeme with
  | natural digit => exact ⟨_, _, rfl, digit⟩
  | word =>
    rw [wordKind] at isNatural
    split at isNatural <;> cases isNatural
  | _ => cases isNatural

/-- Tokens that correspond come of near cuts, none of them of `in`. -/
theorem alike_of_read (split : Lexemes input lexemes) (border : Bordered before input)
    {tokens : List Spanned.Token}
    (read : readLexemes (before ++ input) (utf8Length before) lexemes = .ok tokens)
    (correspond : List.Forall₂ Corresponds
      (darkTokens (surfaceTokens (utf8Length before) lexemes)) tokens) :
    ∀ entry ∈ placed (utf8Length before) lexemes, entry.2 ≠ inWord ∧
      (IsCut entry.2 = true → entry.1 < 2 ^ 32) := by
  induction split generalizing before tokens with
  | nil => nofun
  | @cons kind text after others lexeme _ ih =>
    rw [placed, List.forall_mem_cons, ← utf8Length_append]
    rw [readLexemes] at read
    rw [surfaceTokens, darkTokens_cons] at correspond
    dsimp only at correspond
    split at read
    · next blank =>
      rw [if_pos blank, ← utf8Length_append] at correspond
      rw [← utf8Length_append, ← List.append_assoc] at read
      refine ⟨?_, ih (.next lexeme) read correspond⟩
      subst blank
      exact ⟨nofun, nofun⟩
    · next other =>
      rw [if_neg other, ← utf8Length_append] at correspond
      obtain ⟨found, found_ok, read⟩ := Result.bind_eq_ok.mp read
      obtain ⟨rest, rest_ok, read⟩ := Result.bind_eq_ok.mp read
      cases read
      cases correspond with
      | cons here later =>
      rw [← utf8Length_append, ← List.append_assoc] at rest_ok
      have spelled : found.SpelledAs text := by
        have spelled := here.spelled
        rwa [String.toList_ofList] at spelled
      have near : IsCut (kind, text) = true → utf8Length before < 2 ^ 32 := by
        intro cutOut
        by_contra notNear
        refine far_not_spelled (Nat.not_lt.mp notNear) cutOut ?_ lexeme.ne_nil found_ok spelled
        intro isNatural x last
        obtain ⟨ch, rest, rfl, digit⟩ := lexeme.digit_of_natural isNatural
        exact border x last ch rfl digit
      refine ⟨⟨?_, near⟩, ih (.next lexeme) rest_ok later⟩
      intro isIn
      cases isIn
      rw [readLexeme_near (near rfl)] at found_ok
      cases found_ok
      obtain ⟨word, h⟩ := here.reserved.mp rfl
      cases h

end Sources

theorem lexersAgree_of_stuck (stuck : Stuck source.toList) :
    LexersAgree source := by
  obtain ⟨refused, surface⟩ := lexMachineSurfaceTokens_stuck stuck
  obtain ⟨stopped, lexed⟩ := lex_stopped stuck
  constructor
  · intro tokens ok
    rw [surface] at ok
    cases ok
  · constructor
    · rintro ⟨read, ok⟩
      rw [lexed] at ok
      cases ok
    · rintro ⟨tokens, ok, _⟩
      rw [surface] at ok
      cases ok
  · intro tokens ok
    rw [surface] at ok
    cases ok
  · intro tokens read ok
    rw [surface] at ok
    cases ok

/-- The offset of the first lexeme of a source is 0. -/
theorem lex_of_read (split : Lexemes source.toList lexemes) {tokens : List Spanned.Token} :
    Spanned.lex source = .ok tokens ↔
      ∃ others, readLexemes source.toList 0 lexemes = .ok others ∧
        tokens = others ++ [eofToken source.toList] := by
  rw [lex_lexemes split, Result.bind_eq_ok]
  exact exists_congr fun others => and_congr_right fun _ =>
    ⟨fun h => (Except.ok.inj h).symm, fun h => by rw [h]⟩

theorem lexersAgree_of_wordsAlike
    (split : Lexemes source.toList lexemes) (alike : WordsAlike source.toList) :
    LexersAgree source := by
  have surface := lexMachineSurfaceTokens_lexemes split
  have lossless : ∀ tokens, lexMachineSurfaceTokens source = .ok tokens →
      tokens.flatMap (·.spelling.toList) = source.toList ∧ Contiguous 0 tokens := by
    intro tokens ok
    rw [surface] at ok
    cases ok
    exact ⟨by rw [surfaceTokens_flatMap, split.flatten], surfaceTokens_contiguous 0 lexemes⟩
  by_cases low : ∃ entry ∈ placed 0 lexemes, entry.2 = letWord ∧ entry.1 < 2 ^ 32
  · have refused : Spanned.lex source = .error (.refused .removedTermLet) := by
      have read : readLexemes source.toList 0 lexemes = .error (.refused .removedTermLet) :=
        @read_let [] _ _ split low
      rw [lex_lexemes split, read]
      rfl
    have isLet : ∃ token ∈ surfaceTokens 0 lexemes, token.IsLet := by
      obtain ⟨entry, mem, isLet, _⟩ := low
      exact (surfaceTokens_isLet 0 lexemes).mpr ⟨entry, mem, isLet⟩
    refine ⟨lossless, ?_, fun _ _ _ => refused, ?_⟩
    · constructor
      · rintro ⟨read, ok⟩
        rw [refused] at ok
        cases ok
      · rintro ⟨tokens, ok, noLet⟩
        rw [surface] at ok
        cases ok
        exact absurd isLet noLet
    · intro tokens read _ ok
      rw [refused] at ok
      cases ok
  · have near := (alike lexemes split).resolve_left low
    have noLet : ¬ ∃ entry ∈ placed 0 lexemes, entry.2 = letWord := by
      rintro ⟨entry, mem, isLet⟩
      exact low ⟨entry, mem, isLet, (near entry mem).2 (by rw [isLet]; rfl)⟩
    obtain ⟨tokens, tokens_ok, correspond⟩ := @read_alike [] _ _ split fun entry mem =>
      ⟨fun isLet => noLet ⟨entry, mem, isLet⟩, near entry mem⟩
    have lexed := (lex_of_read split).mpr ⟨tokens, tokens_ok, rfl⟩
    rw [← surfaceTokens_isLet 0] at noLet
    refine ⟨lossless, iff_of_true ⟨_, lexed⟩ ⟨_, surface, noLet⟩, ?_, ?_⟩
    · intro found ok isLet
      rw [surface] at ok
      cases ok
      exact absurd isLet noLet
    · intro found read ok ok'
      rw [surface] at ok
      rw [lexed] at ok'
      cases ok
      cases ok'
      exact ⟨tokens, rfl, correspond⟩

theorem wordsAlike_of_lexersAgree (agree : LexersAgree source) :
    WordsAlike source.toList := by
  intro lexemes split
  have surface := lexMachineSurfaceTokens_lexemes split
  by_cases isLet : ∃ token ∈ surfaceTokens 0 lexemes, token.IsLet
  · left
    have refused := agree.retired _ surface isLet
    apply @let_of_refused [] _ _ split
    rw [lex_lexemes split] at refused
    change readLexemes source.toList 0 lexemes = _
    cases read : readLexemes source.toList 0 lexemes with
    | ok tokens =>
      rw [read] at refused
      cases refused
    | error stopped =>
      rw [read] at refused
      exact refused
  · right
    obtain ⟨read, lexed⟩ := agree.succeed.mpr ⟨_, surface, isLet⟩
    obtain ⟨others, rfl, correspond⟩ := agree.correspond _ _ surface lexed
    obtain ⟨others', read, same⟩ := (lex_of_read split).mp lexed
    have equal : others = others' := List.append_cancel_right same
    rw [equal] at correspond
    exact @alike_of_read [] _ _ split nofun _ read correspond

/-- When the two lexers agree on a source. -/
theorem lexersAgree_iff (source : String) : LexersAgree source ↔ WordsAlike source.toList := by
  refine ⟨wordsAlike_of_lexersAgree, fun alike => ?_⟩
  rcases lexemes_or_stuck source.toList with ⟨lexemes, split⟩ | stuck
  · exact lexersAgree_of_wordsAlike split alike
  · exact lexersAgree_of_stuck stuck

/-- The source `in`: reserved for the token-only lexer, a name for `lex`. -/
theorem in_is_classified_twice : ¬ ∀ source, LexersAgree source := by
  intro agree
  have surface : lexMachineSurfaceTokens "in" = .ok [⟨.reserved, "in", ⟨0, 2⟩⟩] := by decide +kernel
  have lexed : Spanned.lex "in" = .ok [⟨.ident "in", ⟨0, 2⟩⟩, ⟨.eof, ⟨2, 2⟩⟩] := by decide +kernel
  obtain ⟨others, same, correspond⟩ := (agree "in").correspond _ _ surface lexed
  cases correspond with
  | cons here rest =>
    cases rest
    have first := (List.cons.inj same).1
    subst first
    obtain ⟨word, h⟩ := here.reserved.mp rfl
    cases h

end NpaCore.Frontend
