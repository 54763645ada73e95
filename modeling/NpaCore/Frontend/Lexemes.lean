import NpaCore.Frontend.SurfaceTokens

/-!
# The lexical grammar of Machine Surface

What the two lexers read, said once: the lexemes of a text, each with what follows it, and the
texts that begin with none. Each lexer is evaluated on every lexeme.

## Main results

* `lexeme_or_refused`: a text begins with a lexeme or is refused.
* `surfaceTurn_lexeme`, `lexToken_lexeme`: what the lexers make of a lexeme.
-/

namespace NpaCore.Frontend

/-! ### The grammar -/

/-- A word, a numeral and so on, the text of it. -/
abbrev LexemeText := MachineSurfaceTokenKind × List Char

/-- What stands between the quotes. -/
inductive StringBody : List Char → Prop
  | nil : StringBody []
  | plain {c : Char} {text : List Char} : c ≠ '\\' → c ≠ '"' → StringBody text →
    StringBody (c :: text)
  | escaped {c : Char} {text : List Char} : StringBody text → StringBody ('\\' :: c :: text)

/-- The punctuation of one byte that no longer one begins with. -/
def singleKind : Char → Option TokenKind
  | '{' => some .lbrace
  | '}' => some .rbrace
  | '(' => some .lparen
  | ')' => some .rparen
  | ',' => some .comma
  | '@' => some .at
  | '_' => some .hole
  | _ => none

def wordKind (text : List Char) : MachineSurfaceTokenKind :=
  if isReservedSpelling (String.ofList text) then .reserved else .identLike

/-- A lexeme and what follows it. -/
inductive Lexeme : MachineSurfaceTokenKind → List Char → List Char → Prop
  | whitespace {ch : Char} {input : List Char} : isWhitespace ch = true →
    Lexeme .whitespace (ch :: input.takeWhile isWhitespace) (input.dropWhile isWhitespace)
  | comment {input : List Char} :
    Lexeme .comment ('-' :: '-' :: input.takeWhile (· ≠ '\n')) (input.dropWhile (· ≠ '\n'))
  | stringLiteral {text after : List Char} : StringBody text →
    Lexeme .stringLiteral ('"' :: (text ++ ['"'])) after
  | dot {after : List Char} : Lexeme .dot ['.'] after
  | single {ch : Char} {kind : TokenKind} {after : List Char} : singleKind ch = some kind →
    Lexeme .punctuation [ch] after
  | colon {after : List Char} : after.head? ≠ some '=' → Lexeme .punctuation [':'] after
  | colonEq {after : List Char} : Lexeme .punctuation [':', '='] after
  | fatArrow {after : List Char} : Lexeme .punctuation ['=', '>'] after
  | hole {after : List Char} : (∀ ch ∈ after.head?, isIdentStart ch = false) →
    Lexeme .punctuation ['?'] after
  | namedHole {ch : Char} {input : List Char} : isIdentStart ch = true →
    Lexeme .punctuation ('?' :: ch :: input.takeWhile isIdentContinue)
      (input.dropWhile isIdentContinue)
  | natural {ch : Char} {input : List Char} {value : UInt64} : ch.isDigit = true →
    parseU64 (ch :: input.takeWhile Char.isDigit) = some value →
    Lexeme .natural (ch :: input.takeWhile Char.isDigit) (input.dropWhile Char.isDigit)
  | word {ch : Char} {input : List Char} : isIdentStart ch = true →
    Lexeme (wordKind (ch :: input.takeWhile isIdentContinue))
      (ch :: input.takeWhile isIdentContinue) (input.dropWhile isIdentContinue)

/-- The characters that decide alone how a token goes on. -/
def specialChars : List Char :=
  ['-', '"', '.', '{', '}', '(', ')', ',', '@', ':', '=', '_', '?']

/-- A text that begins with no lexeme. -/
inductive Refused : Char → List Char → Prop
  | minus {input : List Char} : input.head? ≠ some '-' → Refused '-' input
  | unterminated {input : List Char} :
    (∀ text after, StringBody text → input ≠ text ++ '"' :: after) → Refused '"' input
  | equals {input : List Char} : input.head? ≠ some '>' → Refused '=' input
  | tooLarge {ch : Char} {input : List Char} : ch.isDigit = true →
    parseU64 (ch :: input.takeWhile Char.isDigit) = none → Refused ch input
  | foreign {ch : Char} {input : List Char} : isWhitespace ch = false → ch ∉ specialChars →
    ch.isDigit = false → isIdentStart ch = false → Refused ch input

/-- The lexemes of a text. -/
inductive Lexemes : List Char → List LexemeText → Prop
  | nil : Lexemes [] []
  | cons {kind : MachineSurfaceTokenKind} {text after : List Char} {others : List LexemeText} :
    Lexeme kind text after → Lexemes after others → Lexemes (text ++ after) ((kind, text) :: others)

theorem Lexeme.ne_nil {kind : MachineSurfaceTokenKind} {text after : List Char}
    (lexeme : Lexeme kind text after) : text ≠ [] := by
  cases lexeme <;> exact List.cons_ne_nil _ _

/-- The lexemes of a text make up the text. -/
theorem Lexemes.flatten {input : List Char} {lexemes : List LexemeText}
    (split : Lexemes input lexemes) : lexemes.flatMap (·.2) = input := by
  induction split with
  | nil => rfl
  | cons _ _ ih => rw [List.flatMap_cons, ih]

theorem stringBody_or (input : List Char) :
    (∃ text after, StringBody text ∧ input = text ++ '"' :: after) ∨
      ∀ text after, StringBody text → input ≠ text ++ '"' :: after := by
  by_cases found : ∃ text after, StringBody text ∧ input = text ++ '"' :: after
  · exact .inl found
  · refine .inr fun text after body same => found ⟨text, after, body, same⟩

variable {ch : Char}

/-- A punctuation character stands alone, or the next character decides. -/
theorem special_lexeme (special : ch ∈ specialChars) (input : List Char) :
    (∃ kind text after, ch :: input = text ++ after ∧ Lexeme kind text after) ∨
      Refused ch input := by
  have alone : ∀ {kind : MachineSurfaceTokenKind}, Lexeme kind [ch] input →
      (∃ kind text after, ch :: input = text ++ after ∧ Lexeme kind text after) ∨
        Refused ch input := fun lexeme => .inl ⟨_, [ch], input, rfl, lexeme⟩
  by_cases single : (singleKind ch).isSome
  · obtain ⟨kind, found⟩ := Option.isSome_iff_exists.mp single
    exact alone (.single found)
  · have others : ch = '-' ∨ ch = '"' ∨ ch = '.' ∨ ch = ':' ∨ ch = '=' ∨ ch = '?' := by
      simp only [specialChars, List.mem_cons, List.not_mem_nil, or_false] at special
      rcases special with rfl | rfl | rfl | rfl | rfl | rfl | rfl | rfl | rfl | rfl | rfl | rfl | rfl
      all_goals first | exact absurd rfl single | simp
    rcases others with rfl | rfl | rfl | rfl | rfl | rfl
    · cases input with
      | nil => exact .inr (.minus (by simp))
      | cons next rest =>
        by_cases again : next = '-'
        · subst again
          exact .inl ⟨_, _, _, by rw [List.cons_append, List.cons_append,
            List.takeWhile_append_dropWhile], .comment⟩
        · exact .inr (.minus (by simpa using again))
    · rcases stringBody_or input with ⟨text, after, body, rfl⟩ | unterminated
      · exact .inl ⟨_, _, after, by simp, .stringLiteral body⟩
      · exact .inr (.unterminated unterminated)
    · exact alone .dot
    · cases input with
      | nil => exact alone (.colon (by simp))
      | cons next rest =>
        by_cases equals : next = '='
        · subst equals
          exact .inl ⟨_, [':', '='], rest, rfl, .colonEq⟩
        · exact alone (.colon (by simpa using equals))
    · cases input with
      | nil => exact .inr (.equals (by simp))
      | cons next rest =>
        by_cases arrow : next = '>'
        · subst arrow
          exact .inl ⟨_, ['=', '>'], rest, rfl, .fatArrow⟩
        · exact .inr (.equals (by simpa using arrow))
    · cases input with
      | nil => exact alone (.hole (by simp))
      | cons next rest =>
        by_cases letter : isIdentStart next = true
        · exact .inl ⟨_, _, _, by rw [List.cons_append, List.cons_append,
            List.takeWhile_append_dropWhile], .namedHole letter⟩
        · exact alone (.hole (by simpa using letter))

theorem lexeme_or_refused (ch : Char) (input : List Char) :
    (∃ kind text after, ch :: input = text ++ after ∧ Lexeme kind text after) ∨
      Refused ch input := by
  have pieces : ∀ p : Char → Bool, ch :: input = ch :: input.takeWhile p ++ input.dropWhile p := by
    intro p
    rw [List.cons_append, List.takeWhile_append_dropWhile]
  by_cases blank : isWhitespace ch = true
  · exact .inl ⟨_, _, _, pieces _, .whitespace blank⟩
  · by_cases digit : ch.isDigit = true
    · cases value : parseU64 (ch :: input.takeWhile Char.isDigit) with
      | none => exact .inr (.tooLarge digit value)
      | some value => exact .inl ⟨_, _, _, pieces _, .natural digit ‹_›⟩
    · by_cases letter : isIdentStart ch = true
      · exact .inl ⟨_, _, _, pieces _, .word letter⟩
      · by_cases special : ch ∈ specialChars
        · exact special_lexeme special input
        · exact .inr (.foreign (by simpa using blank) special (by simpa using digit)
            (by simpa using letter))

/-! ### Slices -/

variable {text : List Char}

theorem utf8Length_cons {c : Char} :
    utf8Length (c :: text) = c.utf8Size + utf8Length text := by
  rw [utf8Length, List.map_cons, List.sum_cons, utf8Length]

theorem utf8Length_append {first second : List Char} :
    utf8Length (first ++ second) = utf8Length first + utf8Length second := by
  rw [utf8Length, List.map_append, List.sum_append, utf8Length, utf8Length]

theorem dropBytes_cons {c : Char} {bytes : Nat} (some : 0 < bytes) :
    dropBytes bytes (c :: text) =
      if c.utf8Size ≤ bytes then dropBytes (bytes - c.utf8Size) text else none := by
  cases bytes with
  | zero => cases some
  | succ bytes => rfl

theorem takeBytes_cons {c : Char} {bytes : Nat} (some : 0 < bytes) :
    takeBytes bytes (c :: text) =
      if c.utf8Size ≤ bytes then (takeBytes (bytes - c.utf8Size) text).map (c :: ·) else none := by
  cases bytes with
  | zero => cases some
  | succ bytes => rfl

theorem dropBytes_append (before rest : List Char) :
    dropBytes (utf8Length before) (before ++ rest) = some rest := by
  induction before with
  | nil => cases rest <;> rfl
  | cons c before ih =>
    have size := c.utf8Size_pos
    rw [utf8Length_cons, List.cons_append, dropBytes_cons (by omega), if_pos (by omega),
      Nat.add_sub_cancel_left, ih]

theorem takeBytes_append (text rest : List Char) :
    takeBytes (utf8Length text) (text ++ rest) = some text := by
  induction text with
  | nil => cases rest <;> rfl
  | cons c text ih =>
    have size := c.utf8Size_pos
    rw [utf8Length_cons, List.cons_append, takeBytes_cons (by omega), if_pos (by omega),
      Nat.add_sub_cancel_left, ih]
    rfl

theorem dropBytes_eq_some {bytes : Nat} {text rest : List Char}
    (h : dropBytes bytes text = some rest) :
    ∃ before, text = before ++ rest ∧ utf8Length before = bytes := by
  induction text generalizing bytes with
  | nil =>
    cases bytes with
    | zero =>
      cases h
      exact ⟨[], rfl, rfl⟩
    | succ bytes => cases h
  | cons c text ih =>
    cases bytes with
    | zero =>
      cases h
      exact ⟨[], rfl, rfl⟩
    | succ bytes =>
      rw [dropBytes_cons (Nat.succ_pos _)] at h
      split at h
      · next fits =>
        obtain ⟨before, rfl, size⟩ := ih h
        exact ⟨c :: before, rfl, by rw [utf8Length_cons, size]; omega⟩
      · cases h

theorem takeBytes_eq_some {bytes : Nat} {text taken : List Char}
    (h : takeBytes bytes text = some taken) :
    ∃ rest, text = taken ++ rest ∧ utf8Length taken = bytes := by
  induction text generalizing bytes taken with
  | nil =>
    cases bytes with
    | zero =>
      cases h
      exact ⟨[], rfl, rfl⟩
    | succ bytes => cases h
  | cons c text ih =>
    cases bytes with
    | zero =>
      cases h
      exact ⟨c :: text, rfl, rfl⟩
    | succ bytes =>
      rw [takeBytes_cons (Nat.succ_pos _)] at h
      split at h
      · next fits =>
        obtain ⟨taken, inner, rfl⟩ := Option.map_eq_some_iff.mp h
        obtain ⟨rest, rfl, size⟩ := ih inner
        exact ⟨rest, rfl, by rw [utf8Length_cons, size]; omega⟩
      · cases h

/-- A slice between the borders of a piece is the piece. -/
theorem slice_piece (before text after : List Char) :
    slice (before ++ (text ++ after)) (utf8Length before) (utf8Length before + utf8Length text) =
      .ok text := by
  rw [slice, if_pos (by omega), dropBytes_append, Option.bind_some, Nat.add_sub_cancel_left,
    takeBytes_append]
  rfl

theorem slice_eq_ok {source text : List Char} {start stop : Nat}
    (h : slice source start stop = .ok text) :
    ∃ before after, source = before ++ text ++ after ∧ utf8Length before = start ∧
      start + utf8Length text = stop := by
  rw [slice] at h
  split at h
  · next order =>
    obtain ⟨rest, dropped, taken⟩ := Option.bind_eq_some_iff.mp (Result.okOr_eq_ok.mp h)
    obtain ⟨before, rfl, start_eq⟩ := dropBytes_eq_some dropped
    obtain ⟨after, rfl, size⟩ := takeBytes_eq_some taken
    exact ⟨before, after, by rw [List.append_assoc], start_eq, by omega⟩
  · cases h

theorem slice_error {source : List Char} {start stop : Nat} {stopped : LexStop}
    (h : slice source start stop = .error stopped) : stopped = .panicked := by
  rw [slice] at h
  split at h
  · cases found : (dropBytes start source).bind (takeBytes (stop - start)) with
    | none =>
      rw [found] at h
      cases h
      rfl
    | some text =>
      rw [found] at h
      cases h
  · cases h
    rfl

theorem utf8Length_pos (some : text ≠ []) : 0 < utf8Length text := by
  cases text with
  | nil => exact absurd rfl some
  | cons c text =>
    have size := c.utf8Size_pos
    rw [utf8Length_cons]
    omega

theorem utf8Length_le (text : List Char) : utf8Length text ≤ 4 * text.length := by
  induction text with
  | nil => exact Nat.le_refl _
  | cons c text ih =>
    have size := c.utf8Size_le_four
    rw [utf8Length_cons, List.length_cons]
    omega

/-- Two cuts of one text at one byte. -/
theorem append_inj_bytes {a b c d : List Char} (same : a ++ b = c ++ d)
    (size : utf8Length a = utf8Length c) : a = c := by
  have empty : ∀ e : List Char, utf8Length e = 0 → e = [] := by
    intro e none
    by_contra some
    have := utf8Length_pos some
    omega
  rcases List.append_eq_append_iff.mp same with ⟨e, rfl, _⟩ | ⟨e, rfl, _⟩
  · rw [utf8Length_append] at size
    rw [empty e (by omega), List.append_nil]
  · rw [utf8Length_append] at size
    rw [empty e (by omega), List.append_nil]

/-- The text that is cut out for a piece: what precedes it by a multiple of 2^32 bytes comes too. -/
theorem cut_eq {before text after cut : List Char}
    (h : slice (before ++ (text ++ after)) (utf8Length before % 2 ^ 32)
      (utf8Length before + utf8Length text) = .ok cut) :
    ∃ start extra, before = start ++ extra ∧ cut = extra ++ text ∧
      utf8Length start = utf8Length before % 2 ^ 32 := by
  obtain ⟨start, rest, whole, start_eq, stop⟩ := slice_eq_ok h
  rw [← List.append_assoc] at whole
  have both : before ++ text = start ++ cut := by
    apply append_inj_bytes whole
    rw [utf8Length_append, utf8Length_append]
    omega
  rcases List.append_eq_append_iff.mp both with ⟨extra, later, rfl⟩ | ⟨extra, same, cut_eq⟩
  · have nothing : utf8Length extra = 0 := by
      have sizes := congrArg utf8Length later
      rw [utf8Length_append] at sizes
      have := Nat.mod_le (utf8Length before) (2 ^ 32)
      omega
    have empty : extra = [] := by
      by_contra some
      have := utf8Length_pos some
      omega
    subst empty
    exact ⟨start, [], by rw [later, List.append_nil, List.append_nil], rfl, start_eq⟩
  · exact ⟨start, extra, same, cut_eq, start_eq⟩

theorem parseU64_none {x : Char} (inside : x ∈ text.tail)
    (notDigit : x.isDigit = false) : parseU64 text = none := by
  have all : ∀ digits : List Char, x ∈ digits → ¬ digits.all Char.isDigit = true := by
    intro digits mem every
    rw [List.all_eq_true.mp every x mem] at notDigit
    cases notDigit
  cases text with
  | nil => cases inside
  | cons c text =>
    unfold parseU64
    dsimp only
    split
    · next plus =>
      cases plus
      exact if_neg fun good => all _ inside good.2.1
    · exact if_neg fun good => all _ (List.mem_cons_of_mem _ inside) good.2.1

/-- A numeral that is cut out too early is no numeral. -/
theorem parseU64_cut {before rest after cut : List Char}
    (h : slice (before ++ (ch :: rest ++ after)) (utf8Length before % 2 ^ 32)
      (utf8Length before + utf8Length (ch :: rest)) = .ok cut)
    (border : ∀ x ∈ before.getLast?, x.isDigit = false)
    (far : 2 ^ 32 ≤ utf8Length before) : parseU64 cut = none := by
  obtain ⟨start, extra, rfl, rfl, start_eq⟩ := cut_eq h
  have size : 2 ^ 32 ≤ utf8Length extra := by
    rw [utf8Length_append] at start_eq far
    have := Nat.mod_lt (utf8Length start + utf8Length extra) (Nat.two_pow_pos 32)
    omega
  have long : 2 ≤ extra.length := by
    have := utf8Length_le extra
    omega
  obtain ⟨first, tail, rfl⟩ := List.exists_cons_of_length_pos (Nat.lt_of_lt_of_le Nat.zero_lt_two long)
  have some : tail ≠ [] := by
    rintro rfl
    simp at long
  apply parseU64_none (x := tail.getLast some)
  · rw [List.cons_append, List.tail_cons]
    exact List.mem_append_left _ (List.getLast_mem some)
  · apply border
    rw [List.getLast?_append_of_ne_nil _ (List.cons_ne_nil _ _), List.getLast?_cons,
      List.getLast?_eq_getLast_of_ne_nil some]
    rfl

/-! ### Loops -/

theorem consumeLoop_eq (predicate : Char → Bool) (offset : Nat) (input : List Char) :
    consumeLoop predicate offset (charIndices offset input) =
      (offset + utf8Length (input.takeWhile predicate),
        charIndices (offset + utf8Length (input.takeWhile predicate))
          (input.dropWhile predicate)) := by
  induction input generalizing offset with
  | nil => rfl
  | cons c input ih =>
    rw [charIndices, consumeLoop, List.takeWhile_cons, List.dropWhile_cons]
    cases predicate c with
    | false => rfl
    | true =>
      rw [if_pos rfl, if_pos rfl, if_pos rfl, ih, utf8Length_cons, Nat.add_assoc]

theorem consumeWhileEnd_eq (predicate : Char → Bool) (offset : Nat) (ch : Char)
    (input : List Char) :
    consumeWhileEnd offset ch (charIndices (offset + ch.utf8Size) input) predicate =
      (offset + utf8Length (ch :: input.takeWhile predicate),
        charIndices (offset + utf8Length (ch :: input.takeWhile predicate))
          (input.dropWhile predicate)) := by
  rw [consumeWhileEnd, consumeLoop_eq, utf8Length_cons, Nat.add_assoc]

/-- The end of a word is found by the last character of it. -/
theorem identLoop_eq (before : List Char) (ch : Char) (input : List Char) :
    ∃ last c tail,
      identLoop (utf8Length before) (charIndices (utf8Length before + ch.utf8Size) input) =
        (last, charIndices (utf8Length before + utf8Length (ch :: input.takeWhile isIdentContinue))
          (input.dropWhile isIdentContinue)) ∧
      dropBytes last (before ++ ch :: input) = some (c :: tail) ∧
      last + c.utf8Size =
        utf8Length before + utf8Length (ch :: input.takeWhile isIdentContinue) := by
  induction input generalizing before ch with
  | nil => exact ⟨_, ch, [], by rw [utf8Length_cons]; rfl, dropBytes_append _ _, by rw [utf8Length_cons]; rfl⟩
  | cons next input ih =>
    rw [charIndices, identLoop, List.takeWhile_cons, List.dropWhile_cons]
    cases isIdentContinue next with
    | false =>
      exact ⟨_, ch, next :: input, by rw [utf8Length_cons]; rfl, dropBytes_append _ _, by rw [utf8Length_cons]; rfl⟩
    | true =>
      obtain ⟨last, c, tail, loop, dropped, stop⟩ := ih (before ++ [ch]) next
      have border : utf8Length (before ++ [ch]) = utf8Length before + ch.utf8Size := by
        rw [utf8Length_append, utf8Length_cons]
        rfl
      rw [border] at loop stop
      rw [List.append_assoc] at dropped
      refine ⟨last, c, tail, ?_, dropped, ?_⟩
      · rw [if_pos rfl, if_pos rfl, if_pos rfl, loop, utf8Length_cons (c := ch), Nat.add_assoc]
      · rw [if_pos rfl, utf8Length_cons (c := ch), ← Nat.add_assoc, stop]

theorem stringLiteralLoop_body (body : StringBody text) (after : List Char) (offset : Nat) :
    stringLiteralLoop false (charIndices offset (text ++ '"' :: after)) =
      some (offset + utf8Length (text ++ ['"']),
        charIndices (offset + utf8Length (text ++ ['"'])) after) := by
  induction body generalizing offset with
  | nil => rfl
  | @plain c text notSlash notQuote _ ih =>
    rw [List.cons_append, charIndices, stringLiteralLoop, if_neg notSlash, if_neg notQuote, ih,
      List.cons_append, utf8Length_cons, Nat.add_assoc]
  | @escaped c text _ ih =>
    rw [List.cons_append, charIndices, stringLiteralLoop, if_pos rfl, List.cons_append, charIndices,
      stringLiteralLoop, ih, List.cons_append, List.cons_append, utf8Length_cons, utf8Length_cons,
      Nat.add_assoc, Nat.add_assoc]

/-- A loop that finds an end has read a body. -/
theorem stringLiteralLoop_some {escaped : Bool} {input : List Char} {offset : Nat}
    {found : Nat × CharIndices}
    (h : stringLiteralLoop escaped (charIndices offset input) = some found) :
    ∃ text after, input = text ++ '"' :: after ∧
      (if escaped then ∃ c body, text = c :: body ∧ StringBody body else StringBody text) := by
  induction input generalizing escaped offset with
  | nil => cases escaped <;> cases h
  | cons c input ih =>
    rw [charIndices] at h
    cases escaped with
    | true =>
      rw [stringLiteralLoop] at h
      obtain ⟨text, after, rfl, body⟩ := ih h
      exact ⟨c :: text, after, rfl, c, text, rfl, by simpa using body⟩
    | false =>
      rw [stringLiteralLoop] at h
      split at h
      · next slash =>
        obtain ⟨text, after, rfl, body⟩ := ih h
        obtain ⟨first, inner, rfl, good⟩ := body
        exact ⟨c :: first :: inner, after, rfl, by simpa [slash] using StringBody.escaped good⟩
      · split at h
        · next quote =>
          exact ⟨[], input, by rw [quote, List.nil_append], by simpa using StringBody.nil⟩
        · obtain ⟨text, after, rfl, body⟩ := ih h
          exact ⟨c :: text, after, rfl,
            by simpa using StringBody.plain ‹_› ‹_› (by simpa using body)⟩

theorem stringLiteralLoop_none {input : List Char}
    (unterminated : ∀ text after, StringBody text → input ≠ text ++ '"' :: after) (offset : Nat) :
    stringLiteralLoop false (charIndices offset input) = none := by
  cases found : stringLiteralLoop false (charIndices offset input) with
  | none => rfl
  | some result =>
    obtain ⟨text, after, same, body⟩ := stringLiteralLoop_some found
    exact absurd same (unterminated text after (by simpa using body))

/-! ### The token-only lexer on lexemes -/

theorem special_of_digit (digit : ch.isDigit = true) : ch ∉ specialChars := by
  intro special
  simp only [specialChars, List.mem_cons, List.not_mem_nil, or_false] at special
  rcases special with rfl | rfl | rfl | rfl | rfl | rfl | rfl | rfl | rfl | rfl | rfl | rfl | rfl
  all_goals cases digit

theorem special_of_letter (letter : isIdentStart ch = true) : ch ∉ specialChars := by
  intro special
  simp only [specialChars, List.mem_cons, List.not_mem_nil, or_false] at special
  rcases special with rfl | rfl | rfl | rfl | rfl | rfl | rfl | rfl | rfl | rfl | rfl | rfl | rfl
  all_goals cases letter

theorem blank_of_digit (digit : ch.isDigit = true) : isWhitespace ch = false := by
  simp only [Char.isDigit, Bool.and_eq_true, decide_eq_true_eq, ge_iff_le, UInt32.le_iff_toNat_le] at digit
  simp only [isWhitespace, Char.toNat]
  have low : 48 ≤ ch.val.toNat := digit.1
  have high : ch.val.toNat ≤ 57 := digit.2
  simp only [Bool.or_eq_false_iff, Bool.and_eq_false_iff, decide_eq_false_iff_not]
  omega

theorem isUpper_def (ch : Char) : ch.isUpper = decide (ch.val ≥ 'A'.val ∧ ch.val ≤ 'Z'.val) := rfl

theorem isLower_def (ch : Char) :
    ch.isLower = (decide (ch.val ≥ 'a'.val) && decide (ch.val ≤ 'z'.val)) := rfl

theorem isAlpha_def (ch : Char) : ch.isAlpha = (ch.isUpper || ch.isLower) := rfl

theorem blank_of_letter (letter : isIdentStart ch = true) : isWhitespace ch = false := by
  simp only [isIdentStart, isAlpha_def, isUpper_def, isLower_def, Bool.or_eq_true,
    Bool.and_eq_true, decide_eq_true_eq, ge_iff_le, UInt32.le_iff_toNat_le] at letter
  simp only [isWhitespace, Char.toNat]
  have range : (65 ≤ ch.val.toNat ∧ ch.val.toNat ≤ 90) ∨ (97 ≤ ch.val.toNat ∧ ch.val.toNat ≤ 122) :=
    letter
  simp only [Bool.or_eq_false_iff, Bool.and_eq_false_iff, decide_eq_false_iff_not]
  omega

theorem digit_of_letter (letter : isIdentStart ch = true) : ch.isDigit = false := by
  simp only [isIdentStart, isAlpha_def, isUpper_def, isLower_def, Bool.or_eq_true,
    Bool.and_eq_true, decide_eq_true_eq, ge_iff_le, UInt32.le_iff_toNat_le] at letter
  have range : (65 ≤ ch.val.toNat ∧ ch.val.toNat ≤ 90) ∨ (97 ≤ ch.val.toNat ∧ ch.val.toNat ≤ 122) :=
    letter
  simp only [Char.isDigit, Bool.and_eq_false_iff, decide_eq_false_iff_not, ge_iff_le,
    UInt32.le_iff_toNat_le]
  change ¬ 48 ≤ ch.val.toNat ∨ ¬ ch.val.toNat ≤ 57
  omega

theorem singleKind_cases {kind : TokenKind} (single : singleKind ch = some kind) :
    ch = '{' ∨ ch = '}' ∨ ch = '(' ∨ ch = ')' ∨ ch = ',' ∨ ch = '@' ∨ ch = '_' := by
  unfold singleKind at single
  split at single
  all_goals simp_all

section Surface

variable {source : List Char} {offset : Nat} {ch : Char} {chars : CharIndices}

theorem surfaceKind_minus (source : List Char) (offset : Nat) (chars : CharIndices) :
    surfaceKind source offset '-' chars =
      match chars with
      | (_, '-') :: chars =>
        .ok (.comment, consumeLoop (· ≠ '\n') (offset + '-'.utf8Size + '-'.utf8Size) chars)
      | _ => .error (.refused unsupportedCharacter) := rfl

theorem surfaceKind_quote (source : List Char) (offset : Nat) (chars : CharIndices) :
    surfaceKind source offset '"' chars =
      match stringLiteralLoop false chars with
      | some (stop, chars) => .ok (.stringLiteral, stop, chars)
      | none => .error (.refused (.parse "unterminated string literal")) := rfl

theorem surfaceKind_equals (source : List Char) (offset : Nat) (chars : CharIndices) :
    surfaceKind source offset '=' chars =
      match chars with
      | (_, '>') :: _ => .ok (.punctuation, consumePunctuationPair offset '=' '>' chars)
      | _ => .error (.refused unsupportedCharacter) := rfl

theorem surfaceKind_plain (blank : isWhitespace ch = false) (plain : ch ∉ specialChars) :
    surfaceKind source offset ch chars =
      if ch.isDigit then do
        let (stop, chars) ← consumeNaturalEnd source offset ch chars
        .ok (.natural, stop, chars)
      else if isIdentStart ch then do
        let (stop, chars) := consumeWhileEnd offset ch chars isIdentContinue
        let spelling ← slice source offset stop
        .ok (if isReservedSpelling (String.ofList spelling) then .reserved else .identLike,
          stop, chars)
      else .error (.refused unsupportedCharacter) := by
  unfold surfaceKind
  rw [if_neg (by simp [blank])]
  split
  case h_14 => rfl
  all_goals exact absurd (by simp [specialChars]) plain

theorem surfaceKind_lexeme {before rest after : List Char} {kind : MachineSurfaceTokenKind}
    (lexeme : Lexeme kind (ch :: rest) after) :
    surfaceKind (before ++ (ch :: rest ++ after)) (utf8Length before) ch
        (charIndices (utf8Length before + ch.utf8Size) (rest ++ after)) =
      .ok (kind, utf8Length before + utf8Length (ch :: rest),
        charIndices (utf8Length before + utf8Length (ch :: rest)) after) := by
  have whole := slice_piece before (ch :: rest) after
  generalize utf8Length before = offset at whole ⊢
  generalize before ++ (ch :: rest ++ after) = source at whole ⊢
  cases lexeme with
  | whitespace blank =>
    rw [List.takeWhile_append_dropWhile]
    unfold surfaceKind
    rw [if_pos blank, consumeWhileEnd_eq]
  | @comment input =>
    have step : ∀ chars, surfaceKind source offset '-' ((offset + 1, '-') :: chars) =
        .ok (.comment, consumeLoop (· ≠ '\n') (offset + '-'.utf8Size + '-'.utf8Size) chars) :=
      fun _ => rfl
    rw [List.cons_append, List.takeWhile_append_dropWhile, charIndices]
    refine (step _).trans ?_
    rw [consumeLoop_eq, utf8Length_cons, utf8Length_cons, ← Nat.add_assoc, ← Nat.add_assoc]
  | @stringLiteral text _ body =>
    have step : ∀ chars found, stringLiteralLoop false chars = some found →
        surfaceKind source offset '"' chars = .ok (.stringLiteral, found) := by
      intro chars found read
      rw [surfaceKind_quote, read]
    rw [List.append_assoc, List.singleton_append,
      step _ _ (stringLiteralLoop_body body after _), utf8Length_cons, Nat.add_assoc]
  | dot => rfl
  | single single =>
    rcases singleKind_cases single with rfl | rfl | rfl | rfl | rfl | rfl | rfl
    all_goals rfl
  | colon other =>
    cases after with
    | nil => rfl
    | cons next after =>
      have different : next ≠ '=' := by simpa using other
      have step : surfaceKind source offset ':' ((offset + 1, next) :: charIndices
          (offset + 1 + next.utf8Size) after) = .ok (.punctuation, if next = '=' then _ else _) := rfl
      refine step.trans ?_
      rw [if_neg different]
      rfl
  | colonEq =>
    rfl
  | fatArrow =>
    rfl
  | hole other =>
    cases after with
    | nil => rfl
    | cons next after =>
      have different : isIdentStart next = false := other next rfl
      have step : surfaceKind source offset '?' ((offset + 1, next) :: charIndices
          (offset + 1 + next.utf8Size) after) =
          .ok (.punctuation, if isIdentStart next = true then _ else _) := rfl
      refine step.trans ?_
      rw [if_neg (by simp [different])]
      rfl
  | @namedHole first input letter =>
    have step : surfaceKind source offset '?' ((offset + 1, first) :: charIndices
        (offset + 1 + first.utf8Size) input) =
        .ok (.punctuation, if isIdentStart first = true then _ else _) := rfl
    rw [List.cons_append, List.takeWhile_append_dropWhile, charIndices]
    refine step.trans ?_
    rw [if_pos letter, consumeWhileEnd_eq, utf8Length_cons (c := '?'), ← Nat.add_assoc]
    rfl
  | @natural _ input _ digit value =>
    have consumed : consumeNaturalEnd source offset ch (charIndices (offset + ch.utf8Size) input) =
        .ok (offset + utf8Length (ch :: input.takeWhile Char.isDigit),
          charIndices (offset + utf8Length (ch :: input.takeWhile Char.isDigit))
            (input.dropWhile Char.isDigit)) := by
      rw [consumeNaturalEnd, consumeWhileEnd_eq]
      dsimp only
      rw [whole, Result.ok_bind, value]
      rfl
    rw [List.takeWhile_append_dropWhile,
      surfaceKind_plain (blank_of_digit digit) (special_of_digit digit), if_pos digit, consumed]
    rfl
  | word letter =>
    rw [List.takeWhile_append_dropWhile,
      surfaceKind_plain (blank_of_letter letter) (special_of_letter letter),
      if_neg (by simp [digit_of_letter letter]), if_pos letter, consumeWhileEnd_eq]
    dsimp only
    rw [whole]
    rfl

/-- The token-only lexer reads every lexeme. -/
theorem surfaceTurn_lexeme {before text after : List Char} {kind : MachineSurfaceTokenKind}
    (lexeme : Lexeme kind text after) :
    surfaceTurn (before ++ (text ++ after)) (charIndices (utf8Length before) (text ++ after)) =
      .ok (some ⟨kind, String.ofList text,
        .of (utf8Length before) (utf8Length before + utf8Length text)⟩,
        charIndices (utf8Length before + utf8Length text) after) := by
  cases text with
  | nil => exact absurd rfl lexeme.ne_nil
  | cons ch rest =>
    have read := @surfaceKind_lexeme ch before rest after kind lexeme
    rw [List.cons_append] at read ⊢
    rw [charIndices, surfaceTurn, read, Result.ok_bind]
    dsimp only
    rw [← List.cons_append, slice_piece]
    rfl

/-- The token-only lexer refuses every other text. -/
theorem surfaceTurn_refused {before input : List Char} (refused : Refused ch input) :
    ∃ diagnostic, surfaceTurn (before ++ ch :: input) (charIndices (utf8Length before) (ch :: input)) =
      .error (.refused diagnostic) := by
  suffices kind : ∃ diagnostic, surfaceKind (before ++ ch :: input) (utf8Length before) ch
      (charIndices (utf8Length before + ch.utf8Size) input) = .error (.refused diagnostic) by
    obtain ⟨diagnostic, failed⟩ := kind
    exact ⟨diagnostic, by rw [charIndices, surfaceTurn, failed, Result.error_bind]⟩
  cases refused with
  | minus other =>
    cases input with
    | nil => exact ⟨_, rfl⟩
    | cons next input =>
      have different : next ≠ '-' := by simpa using other
      refine ⟨unsupportedCharacter, ?_⟩
      rw [surfaceKind_minus, charIndices]
      split
      · next same => exact absurd (Prod.mk.inj (List.cons.inj same).1).2 different
      · rfl
  | unterminated open_ =>
    have step : ∀ source offset chars, stringLiteralLoop false chars = none →
        surfaceKind source offset '"' chars =
          .error (.refused (.parse "unterminated string literal")) := by
      intro source offset chars read
      rw [surfaceKind_quote, read]
    exact ⟨_, step _ _ _ (stringLiteralLoop_none open_ _)⟩
  | equals other =>
    cases input with
    | nil => exact ⟨_, rfl⟩
    | cons next input =>
      have different : next ≠ '>' := by simpa using other
      refine ⟨unsupportedCharacter, ?_⟩
      rw [surfaceKind_equals, charIndices]
      split
      · next same => exact absurd (Prod.mk.inj (List.cons.inj same).1).2 different
      · rfl
  | tooLarge digit large =>
    have whole := slice_piece before (ch :: input.takeWhile Char.isDigit) (input.dropWhile Char.isDigit)
    rw [List.cons_append, List.takeWhile_append_dropWhile] at whole
    refine ⟨.parse "universe level numeral is too large", ?_⟩
    rw [surfaceKind_plain (blank_of_digit digit) (special_of_digit digit), if_pos digit,
      consumeNaturalEnd, consumeWhileEnd_eq]
    dsimp only
    rw [whole, Result.ok_bind, large]
    rfl
  | foreign blank plain digit letter =>
    refine ⟨unsupportedCharacter, ?_⟩
    rw [surfaceKind_plain blank plain, if_neg (by simp [digit]), if_neg (by simp [letter])]

end Surface

/-! ### The lexer of the parser on lexemes -/

section Lex

variable {source : List Char} {offset : Nat} {ch : Char} {chars : CharIndices}

def readWord (text : List Char) : LexResult TokenKind :=
  if String.ofList text = "let" then .error (.refused .removedTermLet)
  else
    match keywordOf (String.ofList text) with
    | some word => .ok (.keyword word)
    | none => .ok (.ident (String.ofList text))

/-- The punctuation that is not cut out of the source. -/
def punctuationToken : List Char → TokenKind
  | [':', '='] => .colonEq
  | ['=', '>'] => .fatArrow
  | [':'] => .colon
  | [ch] => (singleKind ch).getD .hole
  | _ => .hole

def holeName : List Char → Option (List Char)
  | '?' :: first :: rest => some (first :: rest)
  | _ => none

/-- What `lex` makes of a lexeme at an offset. A word, a numeral and a named hole are cut out of
    the source at the offset in 32 bits. -/
def readLexeme (source : List Char) (offset : Nat) : LexemeText → LexResult TokenKind
  | (.identLike, text) | (.reserved, text) => do
    let cut ← slice source (offset % 2 ^ 32) (offset + utf8Length text)
    readWord cut
  | (.natural, text) => do
    let cut ← slice source (offset % 2 ^ 32) (offset + utf8Length text)
    let value ← Result.okOr (parseU64 cut)
      (.refused (.parse "universe level numeral is too large"))
    .ok (.number value)
  | (.punctuation, text) =>
    match holeName text with
    | some _ => do
      let cut ← slice source (offset % 2 ^ 32 + 1) (offset + utf8Length text)
      .ok (.namedHole (String.ofList cut))
    | none => .ok (punctuationToken text)
  | (.dot, _) => .ok .dot
  | (.stringLiteral, _) => .ok .stringLiteral
  | (.comment, _) => .ok .comment
  | (.whitespace, _) | (.externalCommand, _) => .error .panicked

theorem lexToken_minus (source : List Char) (offset : Nat) (chars : CharIndices) :
    Spanned.lexToken source offset '-' chars =
      match chars with
      | (_, '-') :: _ => Spanned.lexComment offset '-' chars
      | _ => Spanned.unsupported chars := rfl

theorem lexToken_quote (source : List Char) (offset : Nat) (chars : CharIndices) :
    Spanned.lexToken source offset '"' chars =
      match stringLiteralLoop false chars with
      | some (stop, chars) => .ok (⟨.stringLiteral, ⟨.ofNat offset, .ofNat stop⟩⟩, chars)
      | none => .error (.refused
          (.parse s!"unterminated string literal starting at byte offset {offset}")) := rfl

theorem lexToken_colon (source : List Char) (offset : Nat) (chars : CharIndices) :
    Spanned.lexToken source offset ':' chars =
      match chars with
      | (nextOffset, '=') :: chars =>
        .ok (⟨.colonEq, ⟨.ofNat offset, .ofNat (nextOffset + 1)⟩⟩, chars)
      | _ => Spanned.single .colon (.ofNat offset) chars := rfl

theorem lexToken_equals (source : List Char) (offset : Nat) (chars : CharIndices) :
    Spanned.lexToken source offset '=' chars =
      match chars with
      | (nextOffset, '>') :: chars =>
        .ok (⟨.fatArrow, ⟨.ofNat offset, .ofNat (nextOffset + 1)⟩⟩, chars)
      | _ => Spanned.unsupported chars := rfl

theorem lexToken_plain (plain : ch ∉ specialChars) :
    Spanned.lexToken source offset ch chars =
      if ch.isDigit then Spanned.lexNumber source (.ofNat offset) offset ch chars
      else if isIdentStart ch then Spanned.lexIdent source (.ofNat offset) offset chars
      else Spanned.unsupported chars := by
  unfold Spanned.lexToken
  dsimp only
  split
  case h_14 => rfl
  all_goals exact absurd (by simp [specialChars]) plain

theorem ofNat_add_one (offset : Nat) : UInt32.ofNat (offset + 1) = UInt32.ofNat offset + 1 :=
  UInt32.ofNat_add offset 1

theorem single_eq {kind : TokenKind} :
    Spanned.single kind (.ofNat offset) chars = .ok (⟨kind, .of offset (offset + 1)⟩, chars) := by
  rw [Span.of, ofNat_add_one]
  rfl

theorem readLexeme_word :
    readLexeme source offset (wordKind text, text) = (do
      let cut ← slice source (offset % 2 ^ 32) (offset + utf8Length text)
      readWord cut) := by
  rw [wordKind]
  split <;> rfl

/-- What `lex` makes of a lexeme other than whitespace. -/
theorem lexToken_lexeme {before rest after : List Char} {kind : MachineSurfaceTokenKind}
    (lexeme : Lexeme kind (ch :: rest) after) (dark : kind ≠ .whitespace) :
    Spanned.lexToken (before ++ (ch :: rest ++ after)) (utf8Length before) ch
        (charIndices (utf8Length before + ch.utf8Size) (rest ++ after)) = (do
      let found ← readLexeme (before ++ (ch :: rest ++ after)) (utf8Length before) (kind, ch :: rest)
      .ok (⟨found, .of (utf8Length before) (utf8Length before + utf8Length (ch :: rest))⟩,
        charIndices (utf8Length before + utf8Length (ch :: rest)) after)) := by
  -- where the loop over a word ends; from here on the source is a variable
  have word_end := identLoop_eq before ch (rest ++ after)
  rw [List.cons_append] at *
  generalize utf8Length before = offset at word_end ⊢
  generalize before ++ ch :: (rest ++ after) = source at word_end ⊢
  have start : (UInt32.ofNat offset).toNat = offset % 2 ^ 32 := UInt32.toNat_ofNat
  cases lexeme with
  | whitespace blank => exact absurd rfl dark
  | @comment input =>
    have step : ∀ chars, Spanned.lexToken source offset '-' ((offset + 1, '-') :: chars) =
        .ok (⟨.comment, .of offset (consumeLoop (· ≠ '\n')
            (offset + '-'.utf8Size + '-'.utf8Size) chars).1⟩,
          (consumeLoop (· ≠ '\n') (offset + '-'.utf8Size + '-'.utf8Size) chars).2) := fun _ => rfl
    rw [List.cons_append, List.takeWhile_append_dropWhile, charIndices]
    refine (step _).trans ?_
    rw [consumeLoop_eq, utf8Length_cons, utf8Length_cons, ← Nat.add_assoc, ← Nat.add_assoc]
    rfl
  | @stringLiteral text _ body =>
    have step : ∀ chars found, stringLiteralLoop false chars = some found →
        Spanned.lexToken source offset '"' chars =
          .ok (⟨.stringLiteral, .of offset found.1⟩, found.2) := by
      intro chars found read
      rw [lexToken_quote, read]
      rfl
    rw [List.append_assoc, List.singleton_append,
      step _ _ (stringLiteralLoop_body body after _), utf8Length_cons, Nat.add_assoc]
    rfl
  | dot => exact single_eq
  | single single =>
    rcases singleKind_cases single with rfl | rfl | rfl | rfl | rfl | rfl | rfl
    all_goals exact single_eq
  | colon other =>
    -- what follows decides between `:` and `:=`
    cases after with
    | nil => exact single_eq
    | cons next after =>
      have different : next ≠ '=' := by simpa using other
      rw [List.nil_append, lexToken_colon, charIndices]
      split
      · next same => exact absurd (Prod.mk.inj (List.cons.inj same).1).2 different
      · exact single_eq
  | colonEq => rfl
  | fatArrow => rfl
  | hole other =>
    cases after with
    | nil => exact single_eq
    | cons next after =>
      have different : isIdentStart next = false := other next rfl
      have step : Spanned.lexToken source offset '?' ((offset + 1, next) :: charIndices
          (offset + 1 + next.utf8Size) after) = if isIdentStart next = true then _ else _ := rfl
      refine step.trans ?_
      rw [if_neg (by simp [different])]
      exact single_eq
  | @namedHole first input letter =>
    have step : Spanned.lexToken source offset '?' ((offset + 1, first) :: charIndices
        (offset + 1 + first.utf8Size) input) = if isIdentStart first = true then _ else _ := rfl
    rw [List.cons_append, List.takeWhile_append_dropWhile, charIndices]
    refine step.trans ?_
    rw [if_pos letter, consumeLoop_eq]
    have stop : offset + 1 + first.utf8Size + utf8Length (input.takeWhile isIdentContinue) =
        offset + utf8Length ('?' :: first :: input.takeWhile isIdentContinue) := by
      rw [utf8Length_cons, utf8Length_cons, ← Nat.add_assoc, ← Nat.add_assoc]
      rfl
    dsimp only
    -- the name is cut out of the source, which can fail where the offset has wrapped
    rw [stop, start, readLexeme, holeName]
    dsimp only
    cases slice source (offset % 2 ^ 32 + 1)
        (offset + utf8Length ('?' :: first :: input.takeWhile isIdentContinue)) with
    | error stopped => rfl
    | ok cut => rfl
  | @natural _ input _ digit value =>
    rw [List.takeWhile_append_dropWhile, lexToken_plain (special_of_digit digit), if_pos digit,
      Spanned.lexNumber, consumeLoop_eq, Nat.add_assoc, ← utf8Length_cons, start, readLexeme]
    dsimp only
    cases slice source (offset % 2 ^ 32)
        (offset + utf8Length (ch :: input.takeWhile Char.isDigit)) with
    | error stopped => rfl
    | ok cut =>
      rw [Result.ok_bind, Result.ok_bind]
      cases parseU64 cut <;> rfl
  | @word _ input letter =>
    obtain ⟨last, c, tail, loop, dropped, stop⟩ := word_end
    rw [List.takeWhile_append_dropWhile] at loop stop
    rw [List.takeWhile_append_dropWhile, lexToken_plain (special_of_letter letter),
      if_neg (by simp [digit_of_letter letter]), if_pos letter, Spanned.lexIdent, loop]
    dsimp only
    rw [dropped]
    change (slice source (UInt32.ofNat offset).toNat (last + c.utf8Size) >>= fun text => _) = _
    rw [stop, start, readLexeme_word]
    cases slice source (offset % 2 ^ 32)
        (offset + utf8Length (ch :: input.takeWhile isIdentContinue)) with
    | error stopped => rfl
    | ok cut =>
      rw [Result.ok_bind, Result.ok_bind, readWord]
      split
      · rfl
      · cases keywordOf (String.ofList cut) <;> rfl

/-- `lex` does not get past a text that begins with no lexeme. A numeral that is too large stays
    so with more digits or with another character before it. -/
theorem lexToken_refused {before input : List Char} (refused : Refused ch input)
    (border : ∀ x ∈ before.getLast?, ch.isDigit = true → x.isDigit = false) :
    ∃ stopped, Spanned.lexToken (before ++ ch :: input) (utf8Length before) ch
      (charIndices (utf8Length before + ch.utf8Size) input) = .error stopped := by
  cases refused with
  | minus other =>
    refine ⟨.refused unsupportedCharacter, ?_⟩
    cases input with
    | nil => rfl
    | cons next input =>
      have different : next ≠ '-' := by simpa using other
      rw [lexToken_minus, charIndices]
      split
      · next same => exact absurd (Prod.mk.inj (List.cons.inj same).1).2 different
      · rfl
  | unterminated unclosed =>
    have step : ∀ source offset chars, stringLiteralLoop false chars = none →
        Spanned.lexToken source offset '"' chars = .error (.refused
          (.parse s!"unterminated string literal starting at byte offset {offset}")) := by
      intro source offset chars read
      rw [lexToken_quote, read]
    exact ⟨_, step _ _ _ (stringLiteralLoop_none unclosed _)⟩
  | equals other =>
    refine ⟨.refused unsupportedCharacter, ?_⟩
    cases input with
    | nil => rfl
    | cons next input =>
      have different : next ≠ '>' := by simpa using other
      rw [lexToken_equals, charIndices]
      split
      · next same => exact absurd (Prod.mk.inj (List.cons.inj same).1).2 different
      · rfl
  | tooLarge digit large =>
    have start : (UInt32.ofNat (utf8Length before)).toNat = utf8Length before % 2 ^ 32 :=
      UInt32.toNat_ofNat
    rw [lexToken_plain (special_of_digit digit), if_pos digit, Spanned.lexNumber, consumeLoop_eq,
      Nat.add_assoc, ← utf8Length_cons, start]
    dsimp only
    cases found : slice (before ++ ch :: input) (utf8Length before % 2 ^ 32)
        (utf8Length before + utf8Length (ch :: input.takeWhile Char.isDigit)) with
    | error stopped => exact ⟨stopped, Result.error_bind⟩
    | ok cut =>
      have whole : before ++ ch :: input = before ++ (ch :: input.takeWhile Char.isDigit ++
          input.dropWhile Char.isDigit) := by
        rw [List.cons_append, List.takeWhile_append_dropWhile]
      rw [whole] at found
      have none : parseU64 cut = none := by
        rcases Nat.lt_or_ge (utf8Length before) (2 ^ 32) with near | far
        · rw [Nat.mod_eq_of_lt near, slice_piece] at found
          cases found
          exact large
        · -- the offset has wrapped, and the text that is cut out begins further left
          exact parseU64_cut found (fun x mem => border x mem digit) far
      rw [Result.ok_bind, none]
      exact ⟨_, rfl⟩
  | foreign blank plain digit letter =>
    refine ⟨.refused unsupportedCharacter, ?_⟩
    rw [lexToken_plain plain, if_neg (by simp [digit]), if_neg (by simp [letter])]
    rfl

end Lex

end NpaCore.Frontend
