import NpaCore.Package.JsonGrammar

/-!
# What the JSON parser accepts

A run of the parser ends with an error of its own, or with a value and a text that the grammar
gives it, within the limits. It ends at no slice and at no bound of a loop: each turn of a loop
and each inner value reads a byte.

## Main result

`yields_parseValue`: what the parser of values yields on a text.
-/

namespace NpaCore.Package

open NpaCore.Utf8

/-! ### Bytes -/

/-- The parser stopped with an error of its own. -/
def Refused (stop : JsonStop) : Prop := ∃ error, stop = .refused error

variable {c : Char}

section Bytes

variable {α : Type} {total : Nat} {input : List Char} {spec : α → List Char → Prop}

theorem yields_refuse {kind : JsonParseErrorKind} :
    Yields Refused (refuse total kind : JsonParser α) input spec :=
  .inl ⟨_, rfl, _, rfl⟩

theorem yields_refuseBefore {kind : JsonParseErrorKind} :
    Yields Refused (refuseBefore total kind : JsonParser α) input spec :=
  .inl ⟨_, rfl, _, rfl⟩

theorem yields_peek {f : Option UInt8 → JsonParser α}
    (next : Yields Refused (f (encode input).head?) input spec) :
    Yields Refused (peek >>= f) input spec :=
  next

theorem yields_remaining {f : List UInt8 → JsonParser α}
    (next : Yields Refused (f (encode input)) input spec) :
    Yields Refused ((Parser.remaining : JsonParser (List UInt8)) >>= f) input spec :=
  next

theorem yields_advance (first : input.head? = some c) :
    Yields Refused (advance c.utf8Size) input fun _ text => text = [c] := by
  cases input with
  | nil => cases first
  | cons d rest =>
    cases first
    refine .inr ⟨(), [c], rest, ?_, rfl, rfl⟩
    rw [advance, encode_cons, ← String.length_utf8EncodeChar, List.drop_left]

theorem yields_advance_ascii (low : c.toNat < 128) (first : (encode input).head? = some (ascii c)) :
    Yields Refused (advance 1) input fun _ text => text = [c] := by
  have size : c.utf8Size = 1 := Char.utf8Size_eq_one_iff.mpr (Nat.le_of_lt_succ low)
  rw [← size]
  exact yields_advance ((head?_encode_ascii low).mp first)

/-- Of a character that is not ASCII one byte is taken, and then the parser must fail. -/
theorem yields_takeByte {f : Option UInt8 → JsonParser α}
    (atEnd : input = [] → Yields Refused (f none) [] spec)
    (atAscii : ∀ c rest, input = c :: rest → c.toNat < 128 →
      Yields Refused (f (some (ascii c))) rest fun a text => spec a (c :: text))
    (atWide : ∀ byte others, 0xc0 ≤ byte → ∃ stop, f (some byte) others = .error stop ∧ Refused stop) :
    Yields Refused (takeByte >>= f) input spec := by
  cases input with
  | nil => exact atEnd rfl
  | cons c rest =>
    by_cases low : c.toNat < 128
    · have taken : (takeByte >>= f) (encode (c :: rest)) = f (some (ascii c)) (encode rest) := by
        rw [encode_ascii low]
        rfl
      rcases atAscii c rest rfl low with ⟨stop, failed, refused⟩ |
        ⟨a, text, left, ok, split, holds⟩
      · exact .inl ⟨stop, taken.trans failed, refused⟩
      · exact .inr ⟨a, c :: text, left, taken.trans ok, by rw [split, List.cons_append], holds⟩
    · obtain ⟨byte, others, bytes, lead⟩ := encode_wide (Nat.le_of_not_lt low) rest
      obtain ⟨stop, failed, refused⟩ := atWide byte others lead
      refine .inl ⟨stop, ?_, refused⟩
      rw [bytes]
      exact failed

theorem wide_ne_ascii (low : c.toNat < 128) {byte : UInt8} (lead : 0xc0 ≤ byte) :
    byte ≠ ascii c := by
  rintro rfl
  rw [UInt8.le_iff_toNat_le, ascii_toNat low] at lead
  exact absurd (Nat.lt_of_le_of_lt lead low) (by decide)

theorem yields_consume (low : c.toNat < 128) {name : String} :
    Yields Refused (consumeExpectedByte total (ascii c) name) input fun _ text => text = [c] := by
  refine yields_takeByte (fun _ => yields_refuse) (fun d rest _ low' => ?_) fun byte others lead => ?_
  · dsimp only
    split
    next same =>
      obtain rfl := ascii_inj low' low same
      exact Yields.pure rfl
    next => exact yields_refuseBefore
  · dsimp only
    rw [if_neg (wide_ne_ascii low lead)]
    exact ⟨_, rfl, _, rfl⟩

theorem isJsonWhitespace_ascii (c : Char) (low : c.toNat < 128) :
    isJsonWhitespace (ascii c) = isBlank c := by
  have same : ∀ d : Char, d.toNat < 128 → decide (ascii c = ascii d) = decide (c = d) :=
    fun d low' => decide_eq_decide.mpr (ascii_eq_iff low low')
  rw [isJsonWhitespace, isBlank, same ' ' (by decide), same '\n' (by decide), same '\r' (by decide),
    same '\t' (by decide)]

theorem skipWs_encode (input : List Char) :
    skipWs (encode input) = .ok ((), encode (input.dropWhile isBlank)) := by
  rw [skipWs, dropWhile_encode isJsonWhitespace_ascii]
  · intro byte lead
    simp [isJsonWhitespace, wide_ne_ascii (c := ' ') (by decide) lead,
      wide_ne_ascii (c := '\n') (by decide) lead, wide_ne_ascii (c := '\r') (by decide) lead,
      wide_ne_ascii (c := '\t') (by decide) lead]
  · intro c wide
    have other : ∀ d : Char, d.toNat < 128 → c ≠ d := by
      rintro d low rfl
      omega
    simp [isBlank, other ' ' (by decide), other '\n' (by decide), other '\r' (by decide),
      other '\t' (by decide)]

theorem yields_skipWs : Yields Refused skipWs input fun _ text => Blank text := by
  refine .inr ⟨(), input.takeWhile isBlank, input.dropWhile isBlank, skipWs_encode input, ?_, ?_⟩
  · exact List.takeWhile_append_dropWhile.symm
  · exact List.all_eq_true.mp List.all_takeWhile

theorem isJsonDigit_ascii (c : Char) (low : c.toNat < 128) : isJsonDigit (ascii c) = c.isDigit := by
  rw [isJsonDigit, Bool.eq_iff_iff, Bool.and_eq_true, decide_eq_true_eq, decide_eq_true_eq,
    ascii_le_iff (by decide) low, ascii_le_iff low (by decide), Char.isDigit]
  simp [UInt32.le_iff_toNat_le]

theorem skipDigits_encode (input : List Char) :
    skipDigits (encode input) = .ok ((), encode (input.dropWhile Char.isDigit)) := by
  rw [skipDigits, dropWhile_encode isJsonDigit_ascii]
  · intro byte lead
    have above : ¬byte ≤ ascii '9' := by
      intro le
      exact absurd (UInt8.le_trans lead le) (by decide)
    simp [isJsonDigit, above]
  · intro c wide
    have above : ¬c.toNat ≤ 57 := by omega
    simp [Char.isDigit, UInt32.le_iff_toNat_le]
    intro _
    omega

end Bytes

/-! ### Strings -/

section Strings

variable {total : Nat} {limits : JsonResourceLimits} {input : List Char}

theorem hexNibble_ascii (low : c.toNat < 128) :
    (hexNibble (ascii c)).map UInt8.toNat = hexDigitValue c := by
  have digits : ∀ d : Char, d.toNat < 128 → d.toNat ≤ c.toNat →
      (ascii c - ascii d).toNat = c.toNat - d.toNat := by
    intro d low' le
    rw [UInt8.toNat_sub_of_le _ _ ((ascii_le_iff low' low).mpr le), ascii_toNat low,
      ascii_toNat low']
  have le : ∀ d e : Char, d ≤ e ↔ d.toNat ≤ e.toNat := fun d e => UInt32.le_iff_toNat_le
  rw [hexNibble, hexDigitValue]
  simp only [Bool.and_eq_true, decide_eq_true_eq, le, ascii_le_iff low (by decide : ('9').toNat < 128),
    ascii_le_iff (by decide : ('0').toNat < 128) low, ascii_le_iff (by decide : ('a').toNat < 128) low,
    ascii_le_iff low (by decide : ('f').toNat < 128), ascii_le_iff (by decide : ('A').toNat < 128) low,
    ascii_le_iff low (by decide : ('F').toNat < 128)]
  split
  next range =>
    rw [Option.map_some, digits '0' (by decide) range.1]
  next =>
    split
    next range =>
      have small : c.toNat ≤ 'f'.toNat := range.2
      rw [Option.map_some, UInt8.toNat_add, digits 'a' (by decide) range.1]
      change some ((c.toNat - 97 + 10) % 256) = some (c.toNat - 97 + 10)
      rw [Nat.mod_eq_of_lt (by omega)]
    next =>
      split
      next range =>
        have small : c.toNat ≤ 'F'.toNat := range.2
        rw [Option.map_some, UInt8.toNat_add, digits 'A' (by decide) range.1]
        change some ((c.toNat - 65 + 10) % 256) = some (c.toNat - 65 + 10)
        rw [Nat.mod_eq_of_lt (by omega)]
      next => rfl

theorem hexNibble_wide {byte : UInt8} (lead : 0xc0 ≤ byte) : hexNibble byte = none := by
  have above : ∀ c : Char, c.toNat < 128 → ¬byte ≤ ascii c := by
    intro c low le
    have small := UInt8.le_iff_toNat_le.mp (UInt8.le_trans lead le)
    rw [ascii_toNat low] at small
    exact absurd (Nat.lt_of_le_of_lt small low) (by decide)
  simp [hexNibble, above '9' (by decide), above 'f' (by decide), above 'F' (by decide)]

theorem hexDigitValue_lt {digit : Nat} (h : hexDigitValue c = some digit) :
    digit < 16 := by
  have le : ∀ d e : Char, d ≤ e ↔ d.toNat ≤ e.toNat := fun d e => UInt32.le_iff_toNat_le
  rw [hexDigitValue] at h
  simp only [le] at h
  split at h
  next range =>
    have small : c.toNat ≤ 57 := range.2
    cases h
    change c.toNat - 48 < 16
    omega
  next =>
    split at h
    next range =>
      have small : c.toNat ≤ 102 := range.2
      cases h
      change c.toNat - 97 + 10 < 16
      omega
    next =>
      split at h
      next range =>
        have small : c.toNat ≤ 70 := range.2
        cases h
        change c.toNat - 65 + 10 < 16
        omega
      next => cases h

theorem shiftNibble_toNat {value : UInt16} {nibble : UInt8} (small : value.toNat < 4096)
    (digit : nibble.toNat < 16) :
    ((value <<< 4) ||| nibble.toUInt16).toNat = value.toNat * 16 + nibble.toNat := by
  have shifted : (value <<< 4).toNat = value.toNat <<< 4 := by
    rw [UInt16.toNat_shiftLeft]
    change value.toNat <<< 4 % 65536 = _
    rw [Nat.shiftLeft_eq]
    exact Nat.mod_eq_of_lt (by omega)
  rw [UInt16.toNat_or, shifted, UInt8.toNat_toUInt16,
    ← Nat.shiftLeft_add_eq_or_of_lt digit, Nat.shiftLeft_eq]

/-- While digits are to be read, the value has room for them. -/
theorem hexRoom {count : Nat} {value : UInt16} {nibble : UInt8}
    (small : (value.toNat + 1) * 16 ^ (count + 1) ≤ 65536) (digit : nibble.toNat < 16) :
    ((value <<< 4) ||| nibble.toUInt16).toNat = value.toNat * 16 + nibble.toNat ∧
      (((value <<< 4) ||| nibble.toUInt16).toNat + 1) * 16 ^ count ≤ 65536 := by
  have power : 16 ^ (count + 1) = 16 * 16 ^ count := by rw [Nat.pow_succ, Nat.mul_comm]
  have least : 1 ≤ 16 ^ count := Nat.one_le_pow _ _ (by decide)
  have room : value.toNat < 4096 := by
    rw [power] at small
    by_contra large
    have : 4097 * (16 * 1) ≤ (value.toNat + 1) * (16 * 16 ^ count) :=
      Nat.mul_le_mul (by omega) (Nat.mul_le_mul_left 16 least)
    omega
  have next := shiftNibble_toNat room digit
  refine ⟨next, ?_⟩
  rw [next]
  refine Nat.le_trans ?_ small
  rw [power, ← Nat.mul_assoc]
  exact Nat.mul_le_mul_right _ (by omega)

theorem yields_parseHexDigits {count : Nat} {value : UInt16}
    (small : (value.toNat + 1) * 16 ^ count ≤ 65536) :
    Yields Refused (parseHexDigits total count value) input fun result text =>
      text.length = count ∧ HexText value.toNat text result.toNat := by
  induction count generalizing value input with
  | zero => exact Yields.pure ⟨rfl, .nil⟩
  | succ count ih =>
    refine yields_takeByte (fun _ => yields_refuse) (fun c rest _ low => ?_) fun byte others lead => ?_
    · dsimp only
      have char := hexNibble_ascii low
      cases found : hexNibble (ascii c) with
      | none => exact yields_refuse
      | some nibble =>
        rw [found, Option.map_some] at char
        obtain ⟨next, smaller⟩ := hexRoom small (hexDigitValue_lt char.symm)
        refine (ih smaller).mono fun result text _ _ hex => ?_
        rw [next] at hex
        exact ⟨by rw [List.length_cons, hex.1], .cons char.symm hex.2⟩
    · dsimp only
      rw [hexNibble_wide lead]
      exact ⟨_, rfl, _, rfl⟩

theorem yields_parseHexU16 :
    Yields Refused (parseHexU16 total) input fun result text => CodeUnit text result.toNat :=
  yields_parseHexDigits (by decide)

/-- The scalar that two surrogates make. -/
theorem pair_toNat {high low : UInt16} (highFrom : 0xd800 ≤ high.toNat) (highTo : high.toNat ≤ 0xdbff)
    (lowFrom : 0xdc00 ≤ low.toNat) (lowTo : low.toNat ≤ 0xdfff) :
    ((0x10000 : UInt32) + (((high - 0xd800).toUInt32 <<< 10) ||| (low - 0xdc00).toUInt32)).toNat =
      0x10000 + (high.toNat - 0xd800) * 0x400 + (low.toNat - 0xdc00) := by
  have first : (high - 0xd800).toUInt32.toNat = high.toNat - 0xd800 := by
    rw [UInt16.toNat_toUInt32, UInt16.toNat_sub_of_le high 0xd800 (UInt16.le_iff_toNat_le.mpr highFrom)]
    rfl
  have second : (low - 0xdc00).toUInt32.toNat = low.toNat - 0xdc00 := by
    rw [UInt16.toNat_toUInt32, UInt16.toNat_sub_of_le low 0xdc00 (UInt16.le_iff_toNat_le.mpr lowFrom)]
    rfl
  have shifted : ((high - 0xd800).toUInt32 <<< 10).toNat = (high.toNat - 0xd800) <<< 10 := by
    rw [UInt32.toNat_shiftLeft, first]
    change (high.toNat - 0xd800) <<< 10 % 4294967296 = _
    rw [Nat.shiftLeft_eq]
    exact Nat.mod_eq_of_lt (by omega)
  have below : low.toNat - 0xdc00 < 2 ^ 10 := by omega
  rw [UInt32.toNat_add, UInt32.toNat_or, shifted, second, ← Nat.shiftLeft_add_eq_or_of_lt below,
    Nat.shiftLeft_eq]
  change (65536 + ((high.toNat - 0xd800) * 1024 + (low.toNat - 0xdc00))) % 4294967296 = _
  rw [Nat.mod_eq_of_lt (by omega)]
  omega

/-- What a scalar is written as, when it is one. -/
def ScalarText (scalar : UInt32) (text : List Char) : Prop :=
  ∀ c : Char, c.toNat = scalar.toNat → CharText c ('\\' :: 'u' :: text)

theorem yields_parseUnicodeScalar :
    Yields Refused (parseUnicodeScalar total) input ScalarText := by
  refine yields_parseHexU16.bind fun unit text rest _ code => ?_
  split
  next isHigh =>
    rw [Bool.and_eq_true, decide_eq_true_eq, decide_eq_true_eq, UInt16.le_iff_toNat_le,
      UInt16.le_iff_toNat_le] at isHigh
    refine (yields_consume (c := '\\') (by decide)).bind fun _ slash _ _ hslash => ?_
    refine (yields_consume (c := 'u') (by decide)).bind fun _ letter _ _ hletter => ?_
    refine yields_parseHexU16.bind fun low text' _ _ code' => ?_
    subst hslash hletter
    split
    next isLow =>
      rw [Bool.and_eq_true, decide_eq_true_eq, decide_eq_true_eq, UInt16.le_iff_toNat_le,
        UInt16.le_iff_toNat_le] at isLow
      refine Yields.pure fun c same => ?_
      rw [pair_toNat isHigh.1 isHigh.2 isLow.1 isLow.2] at same
      rw [List.append_nil]
      exact .pair code isHigh.1 isHigh.2 code' isLow.1 isLow.2 same
    next => exact yields_refuse
  next =>
    refine Yields.pure fun c same => ?_
    rw [UInt16.toNat_toUInt32] at same
    rw [List.append_nil]
    exact .unit (same ▸ code)

theorem yields_parseUnicodeEscape :
    Yields Refused (parseUnicodeEscape total) input fun c text => CharText c ('\\' :: 'u' :: text) := by
  refine yields_parseUnicodeScalar.bind fun scalar text rest _ written => ?_
  cases found : charFromU32 scalar with
  | none => exact yields_refuse
  | some c =>
    refine Yields.pure ?_
    rw [List.append_nil]
    apply written
    rw [charFromU32] at found
    split at found
    · cases found
      rfl
    · cases found

theorem yields_pushStringChar {out : String} :
    Yields Refused (pushStringChar total limits out c) input fun result text =>
      result = out.push c ∧ text = [] ∧ result.utf8ByteSize ≤ limits.stringBytes := by
  rw [pushStringChar]
  split
  next => exact yields_refuse
  next small =>
    refine Yields.pure ⟨rfl, rfl, ?_⟩
    rw [String.utf8ByteSize_push]
    omega

theorem escapedChar_ascii {letter c : Char} (low : letter.toNat < 128) :
    escapedChar (ascii letter) = some c ↔ (letter, c) ∈ letterEscapes := by
  simp only [escapedChar, letterEscapes, ascii_eq_iff low (by decide : ('"').toNat < 128),
    ascii_eq_iff low (by decide : ('\\').toNat < 128), ascii_eq_iff low (by decide : ('/').toNat < 128),
    ascii_eq_iff low (by decide : ('b').toNat < 128), ascii_eq_iff low (by decide : ('f').toNat < 128),
    ascii_eq_iff low (by decide : ('n').toNat < 128), ascii_eq_iff low (by decide : ('r').toNat < 128),
    ascii_eq_iff low (by decide : ('t').toNat < 128), List.mem_cons, Prod.mk.injEq,
    List.not_mem_nil, or_false]
  repeat' split
  all_goals simp_all [eq_comm]

theorem escapedChar_wide {byte : UInt8} (lead : 0xc0 ≤ byte) : escapedChar byte = none := by
  have other : ∀ c : Char, c.toNat < 128 → byte ≠ ascii c := fun _ low => wide_ne_ascii low lead
  simp [escapedChar, other '"' (by decide), other '\\' (by decide), other '/' (by decide),
    other 'b' (by decide), other 'f' (by decide), other 'n' (by decide), other 'r' (by decide),
    other 't' (by decide)]

theorem yields_parseStringEscape {out : String} :
    Yields Refused (parseStringEscape total limits out) input fun result text =>
      ∃ c, result = out.push c ∧ CharText c ('\\' :: text) ∧
        result.utf8ByteSize ≤ limits.stringBytes := by
  refine yields_takeByte (fun _ => yields_refuse) (fun letter rest _ low => ?_)
    fun byte others lead => ?_
  · dsimp only
    cases found : escapedChar (ascii letter) with
    | some c =>
      have listed := (escapedChar_ascii low).mp found
      refine yields_pushStringChar.mono fun result text _ _ pushed => ?_
      obtain ⟨rfl, rfl, size⟩ := pushed
      exact ⟨c, rfl, .letter listed, size⟩
    | none =>
      dsimp only
      split
      next same =>
        obtain rfl := ascii_inj low (by decide) same
        refine yields_parseUnicodeEscape.bind fun c text rest _ written => ?_
        refine yields_pushStringChar.mono fun result more _ _ pushed => ?_
        obtain ⟨rfl, rfl, size⟩ := pushed
        refine ⟨c, rfl, ?_, size⟩
        rw [List.append_nil]
        exact written
      next => exact yields_refuse
  · dsimp only
    rw [escapedChar_wide lead]
    dsimp only
    rw [if_neg (wide_ne_ascii (by decide) lead)]
    exact ⟨_, rfl, _, rfl⟩

theorem firstChar_encode (c : Char) (rest : List Char) :
    firstChar total (encode (c :: rest)) = .ok (c, encode (c :: rest)) := by
  have border : (encode (c :: rest)).head?.all isBoundary = true := by
    cases first : (encode (c :: rest)).head? with
    | none => rfl
    | some byte => exact isBoundary_encode first
  rw [firstChar, border, if_pos rfl, decode_encode]

theorem yields_parseStringTurn {out : String} :
    Yields Refused (parseStringTurn total limits out) input fun outcome text =>
      match outcome with
      | .inl result => ∃ c, result = out.push c ∧ CharText c text ∧
          result.utf8ByteSize ≤ limits.stringBytes
      | .inr result => result = out ∧ text = ['"'] := by
  refine yields_peek ?_
  cases first : (encode input).head? with
  | none => exact yields_refuse
  | some byte =>
    dsimp only
    split
    next same =>
      refine (yields_advance_ascii (c := '"') (by decide) (same ▸ first)).bind fun _ text _ _ h => ?_
      subst h
      exact Yields.pure ⟨rfl, rfl⟩
    next notQuote =>
      split
      next same =>
        refine (yields_advance_ascii (c := '\\') (by decide) (same ▸ first)).bind
          fun _ text _ _ h => ?_
        subst h
        refine yields_parseStringEscape.bind fun result text _ _ h => Yields.pure ?_
        obtain ⟨c, pushed, written, size⟩ := h
        rw [List.append_nil]
        exact ⟨c, pushed, written, size⟩
      next notBackslash =>
        split
        next => exact yields_refuse
        next visible =>
          cases input with
          | nil => cases first
          | cons c rest =>
            have plain : CharText c [c] := by
              by_cases low : c.toNat < 128
              · rw [encode_ascii low] at first
                cases first
                have above : ¬(ascii c).toNat ≤ 0x1f := fun le => visible (UInt8.le_iff_toNat_le.mpr le)
                rw [ascii_toNat low] at above
                exact .unescaped (by omega) (fun same => notQuote (congrArg ascii same))
                  fun same => notBackslash (congrArg ascii same)
              · refine .unescaped (by omega) ?_ ?_
                · rintro rfl
                  exact low (by decide)
                · rintro rfl
                  exact low (by decide)
            have read : Yields Refused (firstChar total) (c :: rest) fun d text => d = c ∧ text = [] :=
              .inr ⟨c, [], c :: rest, firstChar_encode c rest, rfl, rfl, rfl⟩
            refine read.bind fun d text left split h => ?_
            obtain ⟨rfl, rfl⟩ := h
            rw [List.nil_append] at split
            refine (yields_advance (by rw [← split]; rfl)).bind fun _ text _ _ h => ?_
            subst h
            refine yields_pushStringChar.bind fun result text _ _ h => Yields.pure ?_
            obtain ⟨pushed, rfl, size⟩ := h
            exact ⟨d, pushed, plain, size⟩

theorem CharText.ne_nil {text : List Char} (h : CharText c text) : text ≠ [] := by
  cases h <;> exact List.cons_ne_nil _ _

/-- One more character at the end of a string. -/
theorem CharsText.snoc {chars text more : List Char} (h : CharsText chars text)
    (last : CharText c more) : CharsText (chars ++ [c]) (text ++ more) := by
  induction h with
  | nil =>
    have one := CharsText.cons last .nil
    rwa [List.append_nil] at one
  | cons first _ ih =>
    rw [List.cons_append, List.append_assoc]
    exact .cons first ih

theorem yields_parseString :
    Yields Refused (parseString total limits) input fun value text =>
      StringText value text ∧ value.utf8ByteSize ≤ limits.stringBytes := by
  refine (yields_consume (c := '"') (by decide)).bind fun _ quote rest _ h => ?_
  subst h
  -- The characters so far, and that they fit.
  refine (Yields.loop
    (fun out read => CharsText out.toList read ∧ out.utf8ByteSize ≤ limits.stringBytes)
    (fun value text => ∃ chars, CharsText value.toList chars ∧ text = chars ++ ['"'] ∧
      value.utf8ByteSize ≤ limits.stringBytes) ?step ?start).mono ?result
  case step =>
    intro out read rest _ holds
    refine yields_parseStringTurn.mono fun outcome text _ _ h => ?_
    cases outcome with
    | inl result =>
      obtain ⟨c, rfl, written, size⟩ := h
      refine ⟨written.ne_nil, ?_, size⟩
      rw [String.toList_push]
      exact holds.1.snoc written
    | inr result =>
      obtain ⟨rfl, rfl⟩ := h
      exact ⟨read, holds.1, rfl, holds.2⟩
  case start => exact ⟨.nil, Nat.zero_le _⟩
  case result =>
    rintro value text _ _ ⟨chars, written, rfl, size⟩
    exact ⟨⟨chars, written, rfl⟩, size⟩

end Strings

/-! ### Numbers -/

section Numbers

variable {total : Nat} {limits : JsonResourceLimits} {input : List Char}

theorem yields_skipDigits :
    Yields Refused skipDigits input fun _ text => ∀ c ∈ text, c.isDigit = true := by
  refine .inr ⟨(), input.takeWhile Char.isDigit, input.dropWhile Char.isDigit,
    skipDigits_encode input, List.takeWhile_append_dropWhile.symm, ?_⟩
  exact List.all_eq_true.mp List.all_takeWhile

theorem yields_parseDigits : Yields Refused (parseDigits total) input fun _ text => Digits text := by
  refine yields_remaining (yields_skipDigits.bind fun _ text rest split digits => ?_)
  refine yields_remaining ?_
  split
  next => exact yields_refuse
  next moved =>
    refine Yields.pure ?_
    rw [List.append_nil]
    refine ⟨fun none => moved ?_, digits⟩
    rw [split, none, List.nil_append]

theorem yields_parseMinus :
    Yields Refused parseMinus input fun _ text => text = [] ∨ text = ['-'] := by
  refine yields_peek ?_
  split
  next first => exact (yields_advance_ascii (by decide) first).mono fun _ _ _ _ h => .inr h
  next => exact Yields.pure (.inl rfl)

theorem yields_parseIntegerPart :
    Yields Refused (parseIntegerPart total) input fun _ text => IntegerText text := by
  refine yields_peek ?_
  cases first : (encode input).head? with
  | none => exact yields_refuse
  | some byte =>
    dsimp only
    split
    next same =>
      exact (yields_advance_ascii (c := '0') (by decide) (same ▸ first)).mono
        fun _ _ _ _ h => .inl h
    next notZero =>
      split
      next range =>
        rw [Bool.and_eq_true, decide_eq_true_eq, decide_eq_true_eq] at range
        cases input with
        | nil => cases first
        | cons c rest =>
          have low : c.toNat < 128 := by
            by_contra high
            obtain ⟨lead, others, bytes, wide⟩ := encode_wide (Nat.le_of_not_lt high) rest
            rw [bytes] at first
            cases first
            exact absurd (UInt8.le_trans wide range.2) (by decide)
          rw [encode_ascii low] at first
          cases first
          rw [ascii_le_iff (by decide) low, ascii_le_iff low (by decide)] at range
          have digit : c.isDigit = true := by
            rw [← isJsonDigit_ascii c low, isJsonDigit, Bool.and_eq_true, decide_eq_true_eq,
              decide_eq_true_eq, ascii_le_iff (by decide) low, ascii_le_iff low (by decide)]
            exact ⟨Nat.le_trans (by decide) range.1, range.2⟩
          have advanced := yields_advance_ascii low
            (show (encode (c :: rest)).head? = some (ascii c) by rw [encode_ascii low]; rfl)
          refine advanced.bind fun _ text _ _ h => ?_
          subst h
          refine yields_skipDigits.mono fun _ text _ _ digits => ?_
          exact .inr ⟨c, text, rfl, digit, fun same => notZero (congrArg ascii same), digits⟩
      next => exact yields_refuse

theorem yields_parseFraction :
    Yields Refused (parseFraction total) input fun _ text => FractionText text := by
  refine yields_peek ?_
  split
  next first =>
    refine (yields_advance_ascii (by decide) first).bind fun _ text _ _ h => ?_
    subst h
    exact yields_parseDigits.mono fun _ text _ _ digits => .inr ⟨text, rfl, digits⟩
  next => exact Yields.pure (.inl rfl)

theorem yields_parseSign :
    Yields Refused parseSign input fun _ text => text = [] ∨ text = ['+'] ∨ text = ['-'] := by
  refine yields_peek ?_
  split
  next first =>
    rw [Bool.or_eq_true, decide_eq_true_eq, decide_eq_true_eq] at first
    rcases first with plus | minus
    · exact (yields_advance_ascii (by decide) plus).mono fun _ _ _ _ h => .inr (.inl h)
    · exact (yields_advance_ascii (by decide) minus).mono fun _ _ _ _ h => .inr (.inr h)
  next => exact Yields.pure (.inl rfl)

theorem yields_parseExponent :
    Yields Refused (parseExponent total) input fun _ text => ExponentText text := by
  refine yields_peek ?_
  split
  next first =>
    rw [Bool.or_eq_true, decide_eq_true_eq, decide_eq_true_eq] at first
    have marked : ∃ mark, (mark = 'e' ∨ mark = 'E') ∧
        Yields Refused (advance 1) input fun _ text => text = [mark] := by
      rcases first with first | first
      · exact ⟨'e', .inl rfl, yields_advance_ascii (by decide) first⟩
      · exact ⟨'E', .inr rfl, yields_advance_ascii (by decide) first⟩
    obtain ⟨mark, isMark, advanced⟩ := marked
    refine advanced.bind fun _ text _ _ h => ?_
    subst h
    refine yields_parseSign.bind fun _ sign _ _ signed => ?_
    refine yields_parseDigits.mono fun _ digits _ _ h => ?_
    exact .inr ⟨mark, sign, digits, rfl, isMark, signed, h⟩
  next => exact Yields.pure (.inl rfl)

theorem utf8ByteSize_ofList (text : List Char) :
    (String.ofList text).utf8ByteSize = (encode text).length := by
  have bytes : (String.ofList text).toByteArray = (encode text).toByteArray :=
    String.toByteArray_ofList
  rw [← String.size_toByteArray, bytes, List.size_toByteArray]

/-- A slice from one border of characters to another is the text between. -/
theorem sliceFrom_encode (text rest : List Char) :
    sliceFrom (encode (text ++ rest)) (encode rest) = .ok (String.ofList text, encode rest) := by
  have border : ∀ input : List Char, (encode input).head?.all isBoundary = true := by
    intro input
    cases first : (encode input).head? with
    | none => rfl
    | some byte => exact isBoundary_encode first
  rw [sliceFrom, border, border, Bool.and_self, if_pos rfl, length_encode_append,
    Nat.add_sub_cancel, encode_append, List.take_left, fromUTF8?_encode]

theorem yields_parseNumber :
    Yields Refused (parseNumber total limits) input fun value text =>
      value = String.ofList text ∧ NumberText text ∧ value.utf8ByteSize ≤ limits.numberBytes := by
  refine yields_remaining ?_
  refine yields_parseMinus.bind fun _ minus rest split hminus => ?_
  refine yields_parseIntegerPart.bind fun _ integer rest' split' hinteger => ?_
  refine yields_parseFraction.bind fun _ fraction rest'' split'' hfraction => ?_
  refine yields_parseExponent.bind fun _ exponent stop last hexponent => ?_
  refine yields_remaining ?_
  have whole : input = (minus ++ (integer ++ (fraction ++ exponent))) ++ stop := by
    rw [split, split', split'', last]
    simp only [List.append_assoc]
  dsimp only
  split
  next => exact yields_refuse
  next small =>
    rw [whole, length_encode_append, Nat.add_sub_cancel] at small
    refine .inr ⟨String.ofList (minus ++ (integer ++ (fraction ++ exponent))), [], stop, ?_, rfl, ?_⟩
    · rw [whole]
      exact sliceFrom_encode _ _
    · dsimp only
      rw [List.append_nil]
      refine ⟨rfl, ⟨minus, integer, fraction, exponent, rfl, hminus, hinteger, hfraction, hexponent⟩, ?_⟩
      rw [utf8ByteSize_ofList]
      omega

end Numbers

/-! ### Values -/

section Values

variable {total : Nat} {limits : JsonResourceLimits}

theorem Blank.append {text more : List Char} (left : Blank text) (right : Blank more) :
    Blank (text ++ more) := fun c mem => (List.mem_append.mp mem).elim (left c) (right c)

theorem Blank.nil : Blank [] := nofun

theorem ValueText.ne_nil {value : JsonValue} {text : List Char} (h : ValueText value text) :
    text ≠ [] := by
  cases h with
  | null => decide
  | true => decide
  | false => decide
  | number number =>
    obtain ⟨minus, integer, fraction, exponent, rfl, -, integerText, -⟩ := number
    have some : integer ≠ [] := by
      rcases integerText with rfl | ⟨_, _, rfl, -⟩
      · exact List.cons_ne_nil _ _
      · exact List.cons_ne_nil _ _
    simp [some]
  | string string =>
    obtain ⟨_, _, rfl⟩ := string
    exact List.cons_ne_nil _ _
  | emptyArray | array | emptyObject | object => exact List.cons_ne_nil _ _

/-- Blanks before elements belong to the first of them. -/
theorem ElementsText.blank {values : List JsonValue} {text before : List Char}
    (h : ElementsText values text) (blank : Blank before) : ElementsText values (before ++ text) := by
  cases h with
  | last blank' value after =>
    rw [← List.append_assoc]
    exact .last (blank.append blank') value after
  | next blank' value after others =>
    rw [← List.append_assoc]
    exact .next (blank.append blank') value after others

theorem MemberText.blank {member : JsonMember} {text before : List Char}
    (h : MemberText member text) (blank : Blank before) : MemberText member (before ++ text) := by
  cases h with
  | mk blank' name gap gap' value after =>
    rw [← List.append_assoc]
    exact .mk (blank.append blank') name gap gap' value after

theorem MembersText.blank {members : List JsonMember} {text before : List Char}
    (h : MembersText members text) (blank : Blank before) : MembersText members (before ++ text) := by
  cases h with
  | last member => exact .last (member.blank blank)
  | next member others =>
    rw [← List.append_assoc]
    exact .next (member.blank blank) others

/-- A value as the parser finds it: after blanks, and within the limits. -/
def PlacedText (limits : JsonResourceLimits) (place : ValuePlace) (value : JsonValue)
    (text : List Char) : Prop :=
  ∃ before body, text = before ++ body ∧ Blank before ∧ ValueText value body ∧
    WithinLimits limits place value

variable {input : List Char}

theorem yields_parseLiteral {literal : List Char} (low : ∀ c ∈ literal, c.toNat < 128)
    {value : JsonValue} :
    Yields Refused (parseLiteral total (literal.map ascii) value) input fun result text =>
      result = value ∧ text = literal := by
  induction literal generalizing input with
  | nil => exact Yields.pure ⟨rfl, rfl⟩
  | cons c literal ih =>
    rw [List.forall_mem_cons] at low
    refine (yields_consume low.1).bind fun _ text _ _ h => ?_
    subst h
    refine (ih low.2).mono fun result text _ _ h => ?_
    exact ⟨h.1, by rw [h.2]; rfl⟩

variable {inner : ValuePlace → JsonParser JsonValue}

/-- Elements read so far: what elements follow them, they are elements together. -/
def ElementsBefore (values : List JsonValue) (read : List Char) : Prop :=
  ∀ others text, ElementsText others text → ElementsText (values ++ others) (read ++ text)

def MembersBefore (members : List JsonMember) (read : List Char) : Prop :=
  ∀ others text, MembersText others text → MembersText (members ++ others) (read ++ text)

theorem yields_parseArrayTurn {depth maxElements : Nat} {values : List JsonValue}
    (small : values.length ≤ maxElements)
    (inside : Yields Refused (inner (depth + 1, none)) input (PlacedText limits (depth + 1, none))) :
    Yields Refused (parseArrayTurn total inner depth maxElements values) input fun outcome text =>
      ∃ value before body after, Blank before ∧ ValueText value body ∧ Blank after ∧
        WithinLimits limits (depth + 1, none) value ∧ values.length < maxElements ∧
          match outcome with
          | .inl result => result = values ++ [value] ∧ text = before ++ (body ++ (after ++ [',']))
          | .inr result =>
            result = .array (values ++ [value]) ∧ text = before ++ (body ++ (after ++ [']'])) := by
  rw [parseArrayTurn]
  split
  next => exact yields_refuse
  next notFull =>
    refine inside.bind fun value text _ _ placed => ?_
    obtain ⟨before, body, rfl, blank, written, within⟩ := placed
    refine yields_skipWs.bind fun _ after _ _ blank' => ?_
    have room : values.length < maxElements := Nat.lt_of_le_of_ne small notFull
    refine yields_takeByte (fun _ => yields_refuse) (fun c rest _ low => ?_) fun byte others lead => ?_
    · dsimp only
      split
      next same =>
        obtain rfl := ascii_inj low (by decide) same
        refine Yields.pure ⟨value, before, body, after, blank, written, blank', within, room, rfl, ?_⟩
        rw [List.append_assoc]
      next =>
        split
        next same =>
          obtain rfl := ascii_inj low (by decide) same
          refine Yields.pure ⟨value, before, body, after, blank, written, blank', within, room, rfl, ?_⟩
          rw [List.append_assoc]
        next => exact yields_refuseBefore
    · dsimp only
      rw [if_neg (wide_ne_ascii (by decide) lead), if_neg (wide_ne_ascii (by decide) lead)]
      exact ⟨_, rfl, _, rfl⟩

theorem yields_parseArray {depth : Nat} {bound : Option Nat} (shallow : depth ≤ limits.nestingDepth)
    (inside : ∀ shorter, (encode shorter).length < (encode input).length →
      Yields Refused (inner (depth + 1, none)) shorter (PlacedText limits (depth + 1, none))) :
    Yields Refused (parseArray total inner depth
        (min (bound.getD limits.arrayElements) limits.arrayElements)) input fun value text =>
      ValueText value text ∧ WithinLimits limits (depth, bound) value := by
  generalize hmax : min (bound.getD limits.arrayElements) limits.arrayElements = maxElements
  refine (yields_consume (c := '[') (by decide)).bind fun _ bracket rest split h => ?_
  subst h
  refine yields_skipWs.bind fun _ blank rest' split' isBlank => ?_
  refine yields_peek ?_
  split
  next first =>
    refine (yields_advance_ascii (c := ']') (by decide) first).bind fun _ text _ _ h => ?_
    subst h
    refine Yields.pure ⟨.emptyArray isBlank, .array shallow (Nat.zero_le _) nofun⟩
  next =>
    refine (Yields.loop
      (fun values read => ElementsBefore values read ∧ values.length ≤ maxElements ∧
        ∀ value ∈ values, WithinLimits limits (depth + 1, none) value)
      (fun value text => ∃ values text', ElementsText values text' ∧ text = text' ++ [']'] ∧
        value = .array values ∧ values.length ≤ maxElements ∧
          ∀ value ∈ values, WithinLimits limits (depth + 1, none) value) ?step ?start).mono ?result
    case step =>
      intro values read left here holds
      obtain ⟨earlier, small, within⟩ := holds
      have shorter : (encode left).length < (encode input).length := by
        rw [split, split', here, length_encode_append, length_encode_append, length_encode_append]
        have some := encode_pos (List.cons_ne_nil '[' [])
        omega
      refine (yields_parseArrayTurn small (inside left shorter)).mono fun outcome text _ _ h => ?_
      obtain ⟨value, before, body, after, blank, written, blank', fits, room, reads⟩ := h
      have all : ∀ other ∈ values ++ [value], WithinLimits limits (depth + 1, none) other := by
        intro other mem
        rcases List.mem_append.mp mem with mem | mem
        · exact within other mem
        · rw [List.mem_singleton.mp mem]
          exact fits
      have length : (values ++ [value]).length ≤ maxElements := by
        rw [List.length_append, List.length_singleton]
        omega
      cases outcome with
      | inl result =>
        obtain ⟨rfl, rfl⟩ := reads
        refine ⟨by simp, fun others text elements => ?_, length, all⟩
        have next := earlier _ _ (.next blank written blank' elements)
        simpa [List.append_assoc] using next
      | inr result =>
        obtain ⟨rfl, rfl⟩ := reads
        refine ⟨values ++ [value], read ++ (before ++ (body ++ after)), ?_, by simp, rfl, length, all⟩
        exact earlier _ _ (.last blank written blank')
    case start => exact ⟨fun _ _ elements => elements, Nat.zero_le _, nofun⟩
    case result =>
      rintro value text _ _ ⟨values, text', elements, rfl, rfl, length, all⟩
      have written := ValueText.array (elements.blank isBlank)
      refine ⟨by simpa [List.append_assoc] using written, .array shallow ?_ all⟩
      rw [hmax]
      exact length

theorem yields_parseObjectTurn {depth : Nat} {members : List JsonMember}
    (small : members.length ≤ limits.objectMembers)
    (inside : ∀ place, place.1 = depth + 1 → ∀ shorter,
      (encode shorter).length < (encode input).length →
        Yields Refused (inner place) shorter (PlacedText limits place)) :
    Yields Refused (parseObjectTurn total limits inner depth members) input fun outcome text =>
      ∃ key value written, MemberText (.mk key value) written ∧
        key.utf8ByteSize ≤ limits.stringBytes ∧
        WithinLimits limits (depth + 1, arrayMemberBound limits key) value ∧
        members.length < limits.objectMembers ∧
          match outcome with
          | .inl result => result = members ++ [.mk key value] ∧ text = written ++ [',']
          | .inr result => result = .object (members ++ [.mk key value]) ∧ text = written ++ ['}'] := by
  refine yields_skipWs.bind fun _ before rest split blank => ?_
  split
  next => exact yields_refuse
  next notFull =>
    have room : members.length < limits.objectMembers := Nat.lt_of_le_of_ne small notFull
    refine yields_peek ?_
    split
    next => exact yields_refuse
    next =>
      refine yields_parseString.bind fun key name rest' split' string => ?_
      refine yields_skipWs.bind fun _ gap rest'' split'' isGap => ?_
      refine (yields_consume (c := ':') (by decide)).bind fun _ colon left colonSplit h => ?_
      subst h
      have shorter : (encode left).length < (encode input).length := by
        rw [split, split', split'', colonSplit]
        simp only [length_encode_append]
        have some := encode_pos (List.cons_ne_nil ':' [])
        omega
      refine (inside (depth + 1, arrayMemberBound limits key) rfl left shorter).bind
        fun value text _ _ placed => ?_
      obtain ⟨gap', body, rfl, isGap', written, within⟩ := placed
      refine yields_skipWs.bind fun _ after _ _ isAfter => ?_
      have member : MemberText (.mk key value)
          (before ++ (name ++ (gap ++ ':' :: (gap' ++ (body ++ after))))) :=
        .mk blank string.1 isGap isGap' written isAfter
      refine yields_takeByte (fun _ => yields_refuse) (fun c rest _ low => ?_)
        fun byte others lead => ?_
      · dsimp only
        split
        next same =>
          obtain rfl := ascii_inj low (by decide) same
          refine Yields.pure ⟨key, value, _, member, string.2, within, room, rfl, ?_⟩
          simp only [List.append_assoc, List.cons_append, List.nil_append]
        next =>
          split
          next same =>
            obtain rfl := ascii_inj low (by decide) same
            refine Yields.pure ⟨key, value, _, member, string.2, within, room, rfl, ?_⟩
            simp only [List.append_assoc, List.cons_append, List.nil_append]
          next => exact yields_refuseBefore
      · dsimp only
        rw [if_neg (wide_ne_ascii (by decide) lead), if_neg (wide_ne_ascii (by decide) lead)]
        exact ⟨_, rfl, _, rfl⟩

theorem yields_parseObject {depth : Nat} {bound : Option Nat} (shallow : depth ≤ limits.nestingDepth)
    (inside : ∀ place, place.1 = depth + 1 → ∀ shorter,
      (encode shorter).length < (encode input).length →
        Yields Refused (inner place) shorter (PlacedText limits place)) :
    Yields Refused (parseObject total limits inner depth) input fun value text =>
      ValueText value text ∧ WithinLimits limits (depth, bound) value := by
  refine (yields_consume (c := '{') (by decide)).bind fun _ brace rest split h => ?_
  subst h
  refine yields_skipWs.bind fun _ blank rest' split' isBlank => ?_
  refine yields_peek ?_
  split
  next first =>
    refine (yields_advance_ascii (c := '}') (by decide) first).bind fun _ text _ _ h => ?_
    subst h
    exact Yields.pure ⟨.emptyObject isBlank, .object shallow (Nat.zero_le _) nofun nofun⟩
  next =>
    -- the members read so far, as the beginning of an object, and within the limits
    refine (Yields.loop
      (fun members read => MembersBefore members read ∧ members.length ≤ limits.objectMembers ∧
        (∀ key value, .mk key value ∈ members → key.utf8ByteSize ≤ limits.stringBytes) ∧
        ∀ key value, .mk key value ∈ members →
          WithinLimits limits (depth + 1, arrayMemberBound limits key) value)
      (fun value text => ∃ members text', MembersText members text' ∧ text = text' ++ ['}'] ∧
        value = .object members ∧ WithinLimits limits (depth, bound) value) ?step ?start).mono ?result
    case step =>
      intro members read left here holds
      obtain ⟨earlier, small, keys, within⟩ := holds
      have shorter : (encode left).length < (encode input).length := by
        rw [split, split', here]
        simp only [length_encode_append]
        have some := encode_pos (List.cons_ne_nil '{' [])
        omega
      refine (yields_parseObjectTurn small fun place at_depth smaller less =>
        inside place at_depth smaller (Nat.lt_trans less shorter)).mono fun outcome text _ _ h => ?_
      obtain ⟨key, value, written, member, size, fits, room, reads⟩ := h
      have allKeys : ∀ key' value', JsonMember.mk key' value' ∈ members ++ [JsonMember.mk key value] →
          key'.utf8ByteSize ≤ limits.stringBytes := by
        intro key' value' mem
        rcases List.mem_append.mp mem with mem | mem
        · exact keys key' value' mem
        · cases List.mem_singleton.mp mem
          exact size
      have all : ∀ key' value', JsonMember.mk key' value' ∈ members ++ [JsonMember.mk key value] →
          WithinLimits limits (depth + 1, arrayMemberBound limits key') value' := by
        intro key' value' mem
        rcases List.mem_append.mp mem with mem | mem
        · exact within key' value' mem
        · cases List.mem_singleton.mp mem
          exact fits
      have length : (members ++ [JsonMember.mk key value]).length ≤ limits.objectMembers := by
        rw [List.length_append, List.length_singleton]
        omega
      cases outcome with
      | inl result =>
        obtain ⟨rfl, rfl⟩ := reads
        refine ⟨by simp, fun others text elements => ?_, length, allKeys, all⟩
        have next := earlier _ _ (.next member elements)
        simpa [List.append_assoc] using next
      | inr result =>
        obtain ⟨rfl, rfl⟩ := reads
        refine ⟨members ++ [.mk key value], read ++ written, earlier _ _ (.last member), by simp, rfl,
          .object shallow length allKeys all⟩
    case start => exact ⟨fun _ _ elements => elements, Nat.zero_le _, nofun, nofun⟩
    case result =>
      rintro value text _ _ ⟨members, text', elements, rfl, rfl, within⟩
      have written := ValueText.object (elements.blank isBlank)
      exact ⟨by simpa [List.append_assoc] using written, within⟩

theorem Yields.map {α β : Type} {f : α → β} {p : JsonParser α} {spec : α → List Char → Prop}
    (h : Yields Refused p input spec) {next : β → List Char → Prop}
    (imp : ∀ a text, spec a text → next (f a) text) : Yields Refused (f <$> p) input next := by
  refine h.bind fun a text _ _ holds => Yields.pure ?_
  rw [List.append_nil]
  exact imp a text holds

theorem yields_parseValueBody {place : ValuePlace}
    (inside : ∀ place shorter, (encode shorter).length < (encode input).length →
      Yields Refused (inner place) shorter (PlacedText limits place)) :
    Yields Refused (parseValueBody total limits inner place) input (PlacedText limits place) := by
  obtain ⟨depth, bound⟩ := place
  rw [parseValueBody]
  split
  next => exact yields_refuse
  next shallow =>
    have shallow := Nat.le_of_not_lt shallow
    refine yields_skipWs.bind fun _ before rest split blank => ?_
    have smaller : (encode rest).length ≤ (encode input).length := by
      rw [split, length_encode_append]
      omega
    have inner_yields : ∀ place shorter, (encode shorter).length < (encode rest).length →
        Yields Refused (inner place) shorter (PlacedText limits place) :=
      fun place shorter less => inside place shorter (Nat.lt_of_lt_of_le less smaller)
    have placed : ∀ {p : JsonParser JsonValue}, Yields Refused p rest (fun value text =>
        ValueText value text ∧ WithinLimits limits (depth, bound) value) →
          Yields Refused p rest fun value text => PlacedText limits (depth, bound) value
            (before ++ text) :=
      fun h => h.mono fun value text _ _ holds => ⟨before, text, rfl, blank, holds.1, holds.2⟩
    refine yields_peek ?_
    cases (encode rest).head? with
    | none => exact yields_refuse
    | some byte =>
      refine placed ?_
      dsimp only
      split
      next =>
        refine (yields_parseLiteral (by simp)).mono ?_
        rintro _ _ _ _ ⟨rfl, rfl⟩
        exact ⟨.null, .null shallow⟩
      next =>
        split
        next =>
          refine (yields_parseLiteral (by simp)).mono ?_
          rintro _ _ _ _ ⟨rfl, rfl⟩
          exact ⟨.true, .bool shallow⟩
        next =>
          split
          next =>
            refine (yields_parseLiteral (by simp)).mono ?_
            rintro _ _ _ _ ⟨rfl, rfl⟩
            exact ⟨.false, .bool shallow⟩
          next =>
            split
            next =>
              refine Yields.map yields_parseString fun value text h => ?_
              exact ⟨.string h.1, .string shallow h.2⟩
            next =>
              split
              next => exact yields_parseArray shallow (inner_yields _)
              next =>
                split
                next => exact yields_parseObject shallow fun place _ => inner_yields place
                next =>
                  split
                  next =>
                    refine Yields.map yields_parseNumber fun value text h => ?_
                    obtain ⟨rfl, number, small⟩ := h
                    exact ⟨.number number, .number shallow small⟩
                  next => exact yields_refuse

theorem yields_parseValue (place : ValuePlace) :
    Yields Refused (parseValue total limits place) input (PlacedText limits place) :=
  Yields.nest (PlacedText limits) (fun _ _ inside _ => yields_parseValueBody inside) place

end Values

end NpaCore.Package
