import NpaCore.Lib.Codec

/-!
# Parsers of UTF-8 text

Parsers that work on the bytes of a text. A byte below 128 is a character, and the bytes of
another character are all above; a place between bytes is a border of characters when no
continuation byte follows.

## Main definitions

* `encode`: the bytes of a text.
* `loop`: a loop that is left when a turn says so, on at most as many turns as there are bytes
  and one more.
* `nest`: a parser that calls itself, nested at most as deep as there are bytes and one more.
* `Yields`: what a parser returns on a text, and how it fails.
-/

namespace NpaCore.Utf8

variable {ε α β σ ι : Type}

/-! ### Bytes of characters -/

def encode (text : List Char) : List UInt8 := text.flatMap String.utf8EncodeChar

/-- `is_char_boundary`, when this byte comes next. -/
def isBoundary (byte : UInt8) : Bool := byte < 0x80 || 0xc0 ≤ byte

/-- The first character of the bytes. -/
def decode (bytes : List UInt8) : Option Char := bytes.toByteArray.utf8DecodeChar? 0

theorem encode_nil : encode [] = [] := rfl

theorem encode_cons (c : Char) (rest : List Char) :
    encode (c :: rest) = String.utf8EncodeChar c ++ encode rest := rfl

theorem encode_append (text rest : List Char) : encode (text ++ rest) = encode text ++ encode rest :=
  List.flatMap_append ..

theorem length_encode_cons (c : Char) (rest : List Char) :
    (encode (c :: rest)).length = c.utf8Size + (encode rest).length := by
  rw [encode_cons, List.length_append, String.length_utf8EncodeChar]

theorem length_encode_append (text rest : List Char) :
    (encode (text ++ rest)).length = (encode text).length + (encode rest).length := by
  rw [encode_append, List.length_append]

theorem encode_pos {text : List Char} (some : text ≠ []) : 0 < (encode text).length := by
  cases text with
  | nil => exact absurd rfl some
  | cons c rest =>
    rw [length_encode_cons]
    have size := c.utf8Size_pos
    omega

theorem toUTF8_toList (source : String) : source.toUTF8.data.toList = encode source.toList := by
  have bytes : source.toList.utf8Encode = (encode source.toList).toByteArray := rfl
  rw [String.toUTF8_eq_toByteArray, ← String.utf8Encode_toList, bytes]
  simp

theorem decode_encode (c : Char) (rest : List Char) : decode (encode (c :: rest)) = some c :=
  List.utf8DecodeChar?_utf8Encode_cons

theorem fromUTF8?_encode (text : List Char) :
    String.fromUTF8? (encode text).toByteArray = some (String.ofList text) := by
  have bytes : (String.ofList text).toByteArray = (encode text).toByteArray :=
    String.toByteArray_ofList
  rw [← bytes, String.fromUTF8?, dif_pos (String.ofList text).isValidUTF8]
  rfl

/-! ### ASCII characters -/

/-- The byte of an ASCII character. -/
def ascii (c : Char) : UInt8 := c.val.toUInt8

theorem encode_ascii {c : Char} (low : c.toNat < 128) (rest : List Char) :
    encode (c :: rest) = ascii c :: encode rest := by
  rw [encode_cons, String.utf8EncodeChar_eq_singleton]
  · rfl
  · rw [Char.utf8Size_eq_one_iff]
    exact Nat.le_of_lt_succ low

theorem ascii_toNat {c : Char} (low : c.toNat < 128) : (ascii c).toNat = c.toNat := by
  change c.val.toNat % 2 ^ 8 = c.toNat
  exact Nat.mod_eq_of_lt (Nat.lt_trans low (by decide))

theorem ascii_inj {c d : Char} (left : c.toNat < 128) (right : d.toNat < 128)
    (same : ascii c = ascii d) : c = d := by
  have number := congrArg UInt8.toNat same
  rw [ascii_toNat left, ascii_toNat right] at number
  exact Char.toNat_inj.mp number

theorem isBoundary_ascii {c : Char} (low : c.toNat < 128) : isBoundary (ascii c) = true := by
  have small : ascii c < 0x80 := by
    rw [UInt8.lt_iff_toNat_lt, ascii_toNat low]
    exact low
  simp [isBoundary, small]

/-- The first byte of a character that is not ASCII is above, and none that continues. -/
theorem encode_wide {c : Char} (wide : 128 ≤ c.toNat) (rest : List Char) :
    ∃ byte others, encode (c :: rest) = byte :: others ∧ 0xc0 ≤ byte := by
  have lead : ∀ base digits : Nat, 0xc0 ≤ base → digits + base < 256 →
      (0xc0 : UInt8) ≤ UInt8.ofNat (digits + base) := by
    intro base digits low high
    rw [UInt8.le_iff_toNat_le, UInt8.toNat_ofNat']
    change 0xc0 ≤ (digits + base) % 256
    omega
  have tall : ¬c.val.toNat ≤ 0x7f := by
    change 128 ≤ c.val.toNat at wide
    omega
  rw [encode_cons]
  unfold String.utf8EncodeChar
  rw [if_neg tall]
  split
  · exact ⟨_, _, rfl, lead _ _ (Nat.le_refl _) (by omega)⟩
  · split
    · exact ⟨_, _, rfl, lead _ _ (by decide) (by omega)⟩
    · exact ⟨_, _, rfl, lead _ _ (by decide) (by omega)⟩

/-- A byte below 128 at the front is the character there. -/
theorem head?_encode_ascii {c : Char} (low : c.toNat < 128) {input : List Char} :
    (encode input).head? = some (ascii c) ↔ input.head? = some c := by
  cases input with
  | nil => simp [encode_nil]
  | cons d rest =>
    rw [List.head?_cons, Option.some.injEq]
    by_cases small : d.toNat < 128
    · rw [encode_ascii small, List.head?_cons, Option.some.injEq]
      exact ⟨ascii_inj small low, congrArg ascii⟩
    · obtain ⟨byte, others, bytes, high⟩ := encode_wide (Nat.le_of_not_lt small) rest
      rw [bytes, List.head?_cons, Option.some.injEq]
      constructor
      · rintro rfl
        rw [UInt8.le_iff_toNat_le, ascii_toNat low] at high
        exact absurd (Nat.lt_of_le_of_lt high low) (by decide)
      · rintro rfl
        exact absurd low small

theorem ascii_eq_iff {c d : Char} (left : c.toNat < 128) (right : d.toNat < 128) :
    ascii c = ascii d ↔ c = d :=
  ⟨ascii_inj left right, congrArg ascii⟩

theorem ascii_le_iff {c d : Char} (left : c.toNat < 128) (right : d.toNat < 128) :
    ascii c ≤ ascii d ↔ c.toNat ≤ d.toNat := by
  rw [UInt8.le_iff_toNat_le, ascii_toNat left, ascii_toNat right]

/-- Dropping ASCII characters is dropping their bytes. -/
theorem dropWhile_encode {p : UInt8 → Bool} {q : Char → Bool}
    (agree : ∀ c : Char, c.toNat < 128 → p (ascii c) = q c)
    (wide : ∀ byte : UInt8, 0xc0 ≤ byte → p byte = false)
    (wide' : ∀ c : Char, 128 ≤ c.toNat → q c = false) (input : List Char) :
    (encode input).dropWhile p = encode (input.dropWhile q) := by
  induction input with
  | nil => rfl
  | cons c rest ih =>
    by_cases low : c.toNat < 128
    · rw [encode_ascii low, List.dropWhile_cons, List.dropWhile_cons, agree c low]
      split
      · exact ih
      · rw [encode_ascii low]
    · have high := Nat.le_of_not_lt low
      obtain ⟨byte, others, bytes, lead⟩ := encode_wide high rest
      rw [bytes, List.dropWhile_cons, wide byte lead, List.dropWhile_cons, wide' c high]
      exact bytes.symm

/-- Every character begins on a border. -/
theorem isBoundary_encode {input : List Char} {byte : UInt8}
    (first : (encode input).head? = some byte) : isBoundary byte = true := by
  cases input with
  | nil => cases first
  | cons c rest =>
    by_cases low : c.toNat < 128
    · rw [encode_ascii low] at first
      cases first
      exact isBoundary_ascii low
    · obtain ⟨lead, others, bytes, high⟩ := encode_wide (Nat.le_of_not_lt low) rest
      rw [bytes] at first
      cases first
      simp [isBoundary, high]

/-! ### Loops -/

/-- A loop whose turn says how to go on or what to return, on a bounded number of turns. -/
def loopN (exhausted : ε) (turn : σ → Parser UInt8 ε (σ ⊕ β)) : Nat → σ → Parser UInt8 ε β
  | 0, _ => Parser.fail exhausted
  | turns + 1, state => do
    match ← turn state with
    | .inl state => loopN exhausted turn turns state
    | .inr result => pure result

/-- More turns than bytes. -/
def loop (exhausted : ε) (turn : σ → Parser UInt8 ε (σ ⊕ β)) (state : σ) : Parser UInt8 ε β :=
  fun input => loopN exhausted turn (input.length + 1) state input

variable {turn : σ → Parser UInt8 ε (σ ⊕ β)} {exhausted : ε}

/-- What succeeds succeeds on more turns. -/
theorem loopN_more {turns more : Nat}
    (enough : turns ≤ more) {state : σ} {bytes : List UInt8} {result : β × List UInt8}
    (ok : loopN exhausted turn turns state bytes = .ok result) :
    loopN exhausted turn more state bytes = .ok result := by
  induction turns generalizing more state bytes with
  | zero => cases ok
  | succ turns ih =>
    obtain ⟨more, rfl⟩ : ∃ others, more = others + 1 := ⟨more - 1, by omega⟩
    rw [loopN, Parser.bind_eq_ok] at ok ⊢
    obtain ⟨outcome, rest, first, ok⟩ := ok
    refine ⟨outcome, rest, first, ?_⟩
    cases outcome with
    | inl state => exact ih (Nat.le_of_succ_le_succ enough) ok
    | inr result => exact ok

theorem loop_next {state state' : σ} {bytes rest : List UInt8} {result : β × List UInt8}
    (first : turn state bytes = .ok (.inl state', rest)) (shorter : rest.length < bytes.length)
    (later : loop exhausted turn state' rest = .ok result) :
    loop exhausted turn state bytes = .ok result := by
  rw [loop, loopN, Parser.bind_eq_ok]
  exact ⟨.inl state', rest, first, loopN_more shorter later⟩

theorem loop_last {state : σ} {b : β}
    {bytes rest : List UInt8} (last : turn state bytes = .ok (.inr b, rest)) :
    loop exhausted turn state bytes = .ok (b, rest) := by
  rw [loop, loopN, Parser.bind_eq_ok]
  exact ⟨.inr b, rest, last, rfl⟩

/-- A parser with inner calls nested at most `levels` deep. -/
def nestN (exhausted : ε) (body : (ι → Parser UInt8 ε α) → ι → Parser UInt8 ε α) :
    Nat → ι → Parser UInt8 ε α
  | 0, _ => Parser.fail exhausted
  | levels + 1, i => body (nestN exhausted body levels) i

/-- More levels than bytes. -/
def nest (exhausted : ε) (body : (ι → Parser UInt8 ε α) → ι → Parser UInt8 ε α) (i : ι) :
    Parser UInt8 ε α :=
  fun input => nestN exhausted body (input.length + 1) i input

/-! ### What a parser yields -/

/-- The parser fails in a fine way, or returns a value and what is left after its text. -/
def Yields (fine : ε → Prop) (p : Parser UInt8 ε α) (input : List Char)
    (spec : α → List Char → Prop) : Prop :=
  (∃ error, p (encode input) = .error error ∧ fine error) ∨
    ∃ a text rest, p (encode input) = .ok (a, encode rest) ∧ input = text ++ rest ∧ spec a text

variable {fine : ε → Prop} {p : Parser UInt8 ε α} {f : α → Parser UInt8 ε β} {input : List Char}

theorem Yields.pure {a : α} {spec : α → List Char → Prop} (holds : spec a []) :
    Yields fine (Pure.pure a : Parser UInt8 ε α) input spec :=
  .inr ⟨a, [], input, rfl, rfl, holds⟩

theorem Yields.mono {spec weaker : α → List Char → Prop} (h : Yields fine p input spec)
    (imp : ∀ a text rest, input = text ++ rest → spec a text → weaker a text) :
    Yields fine p input weaker := by
  rcases h with error | ⟨a, text, rest, ok, split, holds⟩
  · exact .inl error
  · exact .inr ⟨a, text, rest, ok, split, imp a text rest split holds⟩

theorem Yields.bind {spec : α → List Char → Prop} {next : β → List Char → Prop}
    (first : Yields fine p input spec)
    (second : ∀ a text rest, input = text ++ rest → spec a text →
      Yields fine (f a) rest fun b more => next b (text ++ more)) :
    Yields fine (p >>= f) input next := by
  rcases first with ⟨error, failed, isFine⟩ | ⟨a, text, rest, ok, split, holds⟩
  · refine .inl ⟨error, ?_, isFine⟩
    change Parser.bind p f _ = _
    rw [Parser.bind, failed]
  · have bound : (p >>= f) (encode input) = f a (encode rest) := by
      change Parser.bind p f _ = _
      rw [Parser.bind, ok]
    rcases second a text rest split holds with ⟨error, failed, isFine⟩ |
      ⟨b, more, left, ok', split', holds'⟩
    · exact .inl ⟨error, bound.trans failed, isFine⟩
    · refine .inr ⟨b, text ++ more, left, bound.trans ok', ?_, holds'⟩
      rw [split, split', List.append_assoc]

/-- What stays the same over the turns of a loop, each of which reads a byte before the next:
    the text read so far and the state. -/
theorem Yields.loop (invariant : σ → List Char → Prop) (spec : β → List Char → Prop)
    (step : ∀ state read rest, input = read ++ rest → invariant state read →
      Yields fine (turn state) rest fun outcome text => match outcome with
        | .inl state => text ≠ [] ∧ invariant state (read ++ text)
        | .inr result => spec result (read ++ text)) {state : σ} (start : invariant state []) :
    Yields fine (loop exhausted turn state) input spec := by
  have turns : ∀ turns state read rest, input = read ++ rest → invariant state read →
      (encode rest).length < turns →
        Yields fine (loopN exhausted turn turns state) rest fun result text =>
          spec result (read ++ text) := by
    intro turns
    induction turns with
    | zero => exact fun _ _ _ _ _ small => absurd small (Nat.not_lt_zero _)
    | succ turns ih =>
      intro state read rest here holds small
      refine (step state read rest here holds).bind fun outcome text later split after => ?_
      cases outcome with
      | inl state =>
        have shorter : (encode later).length < turns := by
          have some := encode_pos after.1
          rw [split, length_encode_append] at small
          omega
        have split' : input = read ++ text ++ later := by rw [here, split, List.append_assoc]
        refine (ih state _ later split' after.2 shorter).mono fun result more _ _ holds => ?_
        rwa [← List.append_assoc]
      | inr result =>
        refine Yields.pure ?_
        rwa [List.append_nil]
  exact turns _ state [] input rfl start (Nat.lt_succ_self _)

/-- What a body yields when its inner calls, on shorter texts, yield what they should. -/
theorem Yields.nest {body : (ι → Parser UInt8 ε α) → ι → Parser UInt8 ε α}
    (spec : ι → α → List Char → Prop)
    (step : ∀ inner input, (∀ i shorter, (encode shorter).length < (encode input).length →
        Yields fine (inner i) shorter (spec i)) →
      ∀ i, Yields fine (body inner i) input (spec i)) (i : ι) :
    Yields fine (nest exhausted body i) input (spec i) := by
  have levels : ∀ levels i input, (encode input).length < levels →
      Yields fine (nestN exhausted body levels i) input (spec i) := by
    intro levels
    induction levels with
    | zero => exact fun _ _ small => absurd small (Nat.not_lt_zero _)
    | succ levels ih =>
      intro i input small
      exact step _ input (fun i shorter less => ih i shorter (by omega)) i
  exact levels _ i input (Nat.lt_succ_self _)

end NpaCore.Utf8
