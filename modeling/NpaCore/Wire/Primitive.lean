import Mathlib.Tactic.Ring
import NpaCore.Wire.Decoder

/-!
# Exact decoders for numbers, strings and vectors

Each decoder succeeds on exactly the encodings of the values that its checks let
through: `uvar` on the shortest form of a number, `string` on UTF-8 with its length,
and a vector on at most as many entries as its limit.
-/

namespace NpaCore.Wire

open NpaCore.Parser

/-- At most as many entries as a nested vector may have. -/
def Nested {α : Type} (items : List α) : Prop := items.length ≤ maxNestedVectorEntries

namespace Decoder

/-! ### Numbers -/

theorem encodeUvarGroups_ne_nil (groups value : Nat) :
    encodeUvarGroups (groups + 1) value ≠ [] := by
  rw [encodeUvarGroups]
  split
  next => simp
  next => simp

@[simp] theorem encodeUvar_ne_nil (value : Id) : encodeUvar value ≠ [] :=
  encodeUvarGroups_ne_nil 9 _

theorem or_shiftLeft {value bits shift : Nat} (below : value < 2 ^ shift) :
    value ||| bits <<< shift = value + bits * 2 ^ shift := by
  rw [Nat.or_comm, ← Nat.shiftLeft_add_eq_or_of_lt below, Nat.shiftLeft_eq, Nat.add_comm]

theorem byte_eq_ok {input rest : Bytes} {next : UInt8} :
    byte input = .ok (next, rest) ↔ input = next :: rest := token_eq_ok

theorem toNat_ofNat_of_lt_256 {value : Nat} (small : value < 256) :
    (UInt8.ofNat value).toNat = value := UInt8.toNat_ofNat_of_lt' small

/-- One turn of the loop, by the byte it reads. -/
theorem uvarFrom_cons (turns shift value : Nat) (read : Bytes) (next : UInt8) (rest : Bytes) :
    uvarFrom (turns + 1) shift value read (next :: rest) =
      (if next.toNat < 128 then do
        Parser.ensure (encodeUvar (UInt64.ofNat
          ((value ||| (next.toNat % 128) <<< shift) % 2 ^ 64)) = read ++ [next])
          (.nonCanonicalEncoding "uvar")
        pure (UInt64.ofNat ((value ||| (next.toNat % 128) <<< shift) % 2 ^ 64))
      else if 64 ≤ shift + 7 then Parser.fail .decodeError
      else uvarFrom turns (shift + 7) ((value ||| (next.toNat % 128) <<< shift) % 2 ^ 64)
        (read ++ [next]) : Decoder Id) rest := rfl

/-- The turn that reads the last byte. -/
theorem uvarFrom_last {turns shift value v : Nat} {read rest : Bytes} (small : v < 128)
    (below : value < 2 ^ shift) (total : value + v * 2 ^ shift < 2 ^ 64)
    (canonical : encodeUvar (UInt64.ofNat (value + v * 2 ^ shift)) = read ++ [UInt8.ofNat v]) :
    uvarFrom (turns + 1) shift value read (UInt8.ofNat v :: rest) =
      .ok (UInt64.ofNat (value + v * 2 ^ shift), rest) := by
  have next : (UInt8.ofNat v).toNat = v := toNat_ofNat_of_lt_256 (by omega)
  have sum : (value ||| v <<< shift) % 2 ^ 64 = value + v * 2 ^ shift := by
    rw [or_shiftLeft below]
    exact Nat.mod_eq_of_lt total
  rw [uvarFrom_cons, next, Nat.mod_eq_of_lt small, sum, if_pos small, bind_eq_ok]
  exact ⟨(), rest, ensure_eq_ok.mpr ⟨decide_eq_true canonical, rfl⟩, rfl⟩

/-- A turn that reads a byte with the high bit set. -/
theorem uvarFrom_more {turns shift value v : Nat} {read rest : Bytes} (large : 128 ≤ v)
    (below : value < 2 ^ shift) (total : value + v * 2 ^ shift < 2 ^ 64) :
    uvarFrom (turns + 1) shift value read (UInt8.ofNat (v % 128 + 128) :: rest) =
      uvarFrom turns (shift + 7) (value + v % 128 * 2 ^ shift)
        (read ++ [UInt8.ofNat (v % 128 + 128)]) rest := by
  have next : (UInt8.ofNat (v % 128 + 128)).toNat = v % 128 + 128 :=
    toNat_ofNat_of_lt_256 (by omega)
  have low : (v % 128 + 128) % 128 = v % 128 := by omega
  have part : v % 128 * 2 ^ shift ≤ v * 2 ^ shift := Nat.mul_le_mul_right _ (Nat.mod_le _ _)
  have sum : (value ||| (v % 128) <<< shift) % 2 ^ 64 = value + v % 128 * 2 ^ shift := by
    rw [or_shiftLeft below]
    exact Nat.mod_eq_of_lt (by omega)
  have room : shift + 7 < 64 := by
    -- the bits of `v` above the present group still fit
    by_contra full
    have power : 2 ^ 64 ≤ 2 ^ (shift + 7) := Nat.pow_le_pow_right (by omega) (by omega)
    have high : 128 * 2 ^ shift ≤ v * 2 ^ shift := Nat.mul_le_mul_right _ large
    rw [Nat.pow_add] at power
    omega
  have longer : ¬ v % 128 + 128 < 128 := by omega
  have inside : ¬ 64 ≤ shift + 7 := by omega
  rw [uvarFrom_cons, next, low, sum, if_neg longer, if_neg inside]

/-- The loop on the groups of `v`, whose bits go above the `shift` bits already read. -/
theorem uvarFrom_groups (turns : Nat) {shift value v : Nat} {read : Bytes} (rest : Bytes)
    (below : value < 2 ^ shift) (small : v < 128 ^ (turns + 1))
    (total : value + v * 2 ^ shift < 2 ^ 64)
    (canonical : encodeUvar (UInt64.ofNat (value + v * 2 ^ shift)) =
      read ++ encodeUvarGroups (turns + 1) v) :
    uvarFrom (turns + 1) shift value read (encodeUvarGroups (turns + 1) v ++ rest) =
      .ok (UInt64.ofNat (value + v * 2 ^ shift), rest) := by
  induction turns generalizing shift value v read with
  | zero =>
    have one : v < 128 := by simpa using small
    rw [encodeUvarGroups, if_pos one] at canonical ⊢
    exact uvarFrom_last one below total canonical
  | succ turns ih =>
    rw [encodeUvarGroups] at canonical ⊢
    by_cases one : v < 128
    · rw [if_pos one] at canonical ⊢
      exact uvarFrom_last one below total canonical
    · rw [if_neg one] at canonical ⊢
      have parts : v % 128 + 128 * (v / 128) = v := Nat.mod_add_div v 128
      have same : value + v % 128 * 2 ^ shift + v / 128 * 2 ^ (shift + 7) =
          value + v * 2 ^ shift := by
        rw [Nat.pow_add, Nat.add_assoc]
        congr 1
        calc v % 128 * 2 ^ shift + v / 128 * (2 ^ shift * 2 ^ 7)
            = (v % 128 + 128 * (v / 128)) * 2 ^ shift := by ring
          _ = v * 2 ^ shift := by rw [parts]
      have next : value + v % 128 * 2 ^ shift < 2 ^ (shift + 7) := by
        have group : v % 128 * 2 ^ shift ≤ 127 * 2 ^ shift :=
          Nat.mul_le_mul_right _ (by omega)
        rw [Nat.pow_add]
        omega
      rw [List.cons_append, uvarFrom_more (by omega) below total, ← same]
      rw [← same] at canonical
      refine ih next ?_ (same ▸ total) (by simpa using canonical)
      rw [Nat.pow_succ] at small
      omega

/-- What the loop accepts is the canonical form of the number it returns. -/
theorem uvarFrom_canonical {turns shift value : Nat} {read input rest : Bytes} {result : Id}
    (h : uvarFrom turns shift value read input = .ok (result, rest)) :
    ∃ more, input = more ++ rest ∧ encodeUvar result = read ++ more := by
  induction turns generalizing shift value read input with
  | zero => cases h
  | succ turns ih =>
    simp only [uvarFrom, bind_eq_ok, byte_eq_ok] at h
    obtain ⟨next, middle, rfl, h⟩ := h
    split at h
    next =>
      simp only [bind_eq_ok, ensure_eq_ok, pure_eq_ok, decide_eq_true_eq] at h
      obtain ⟨_, _, ⟨canonical, rfl⟩, rfl, rfl⟩ := h
      exact ⟨[next], rfl, canonical⟩
    next =>
      split at h
      next => simp at h
      next =>
        obtain ⟨more, rfl, canonical⟩ := ih h
        exact ⟨next :: more, rfl, by simpa using canonical⟩

theorem uvar_reads : Reads uvar encodeUvar fun _ => True := by
  intro input value rest
  constructor
  · intro h
    obtain ⟨more, rfl, canonical⟩ := uvarFrom_canonical h
    exact ⟨trivial, by rw [canonical, List.nil_append]⟩
  · rintro ⟨_, rfl⟩
    have bound : value.toNat < 2 ^ 64 := value.toNat_lt
    have groups : value.toNat < 128 ^ (9 + 1) := by omega
    have same : UInt64.ofNat (0 + value.toNat * 2 ^ 0) = value := by simp
    have whole : uvarFrom (9 + 1) 0 0 [] (encodeUvarGroups (9 + 1) value.toNat ++ rest) =
        .ok (UInt64.ofNat (0 + value.toNat * 2 ^ 0), rest) :=
      uvarFrom_groups 9 rest (by decide) groups (by omega) (by rw [same]; rfl)
    rw [same] at whole
    exact whole

theorem usize_reads : Reads usize encodeUvar fun _ => True := uvar_reads

theorem u32_reads : Reads u32 (fun index => encodeUvar index.toUInt64) fun _ => True := by
  intro input value rest
  simp only [u32, bind_eq_ok, uvar_reads _ _ _, ensure_eq_ok, pure_eq_ok, true_and,
    decide_eq_true_eq]
  constructor
  · rintro ⟨wide, _, rfl, _, _, ⟨small, rfl⟩, rfl, rfl⟩
    have same : wide.toUInt32.toUInt64 = wide := by
      apply UInt64.toNat_inj.mp
      rw [UInt32.toNat_toUInt64, UInt64.toNat_toUInt32, Nat.mod_eq_of_lt small]
    rw [same]
  · rintro rfl
    refine ⟨value.toUInt64, rest, rfl, (), rest, ⟨?_, rfl⟩, by simp, rfl⟩
    have := value.toNat_lt
    simpa using this

/-! ### Vectors and strings -/

theorem ofNat_toNat_of_lt {count : Nat} (small : count < 2 ^ 64) :
    (UInt64.ofNat count).toNat = count := UInt64.toNat_ofNat_of_lt' small

theorem boundedLenFor_eq_ok {kind : StructuralLimitKind} {limit count : Nat} {input rest : Bytes}
    (bound : limit < 2 ^ 64) :
    boundedLenFor kind limit input = .ok (count, rest) ↔
      count ≤ limit ∧ count ≤ rest.length ∧
        input = encodeUvar (UInt64.ofNat count) ++ rest := by
  simp only [boundedLenFor, ensureCountLimit, bind_eq_ok, usize_reads _ _ _, ensure_eq_ok,
    remaining_eq_ok, pure_eq_ok, decide_eq_true_eq, true_and]
  constructor
  · rintro ⟨len, _, rfl, _, _, ⟨within, rfl⟩, _, _, ⟨rfl, rfl⟩, _, _, ⟨enough, rfl⟩, rfl, rfl⟩
    exact ⟨within, enough, by simp⟩
  · rintro ⟨within, enough, rfl⟩
    have same := ofNat_toNat_of_lt (by omega : count < 2 ^ 64)
    exact ⟨UInt64.ofNat count, rest, rfl, (), rest, ⟨by omega, rfl⟩, rest, rest, ⟨rfl, rfl⟩, (),
      rest, ⟨by omega, rfl⟩, same, rfl⟩

theorem vecFor_reads {α : Type} {decode : Decoder α} {encode : α → Bytes} {valid : α → Prop}
    (kind : StructuralLimitKind) {limit : Nat} (bound : limit < 2 ^ 64)
    (reads : Reads decode encode valid) (nonempty : ∀ item, encode item ≠ []) :
    Reads (vecFor kind limit decode) (encodeVec encode) fun items =>
      items.length ≤ limit ∧ ∀ item ∈ items, valid item := by
  intro input items rest
  simp only [vecFor, bind_eq_ok, boundedLenFor_eq_ok bound, reads_collectN reads _ _ _ _]
  constructor
  · rintro ⟨_, _, ⟨within, _, rfl⟩, ⟨rfl, all⟩, rfl⟩
    exact ⟨⟨within, all⟩, by simp [encodeVec, encodeLen]⟩
  · rintro ⟨⟨within, all⟩, rfl⟩
    have enough := length_le_flatMap fun item (_ : item ∈ items) => nonempty item
    refine ⟨items.length, items.flatMap encode ++ rest, ⟨within, ?_, ?_⟩, ⟨rfl, all⟩, rfl⟩
    · rw [List.length_append]
      omega
    · simp [encodeVec, encodeLen]

theorem vec_reads {α : Type} {decode : Decoder α} {encode : α → Bytes} {valid : α → Prop}
    (reads : Reads decode encode valid) (nonempty : ∀ item, encode item ≠ []) :
    Reads (vec decode) (encodeVec encode) fun items =>
      Nested items ∧ ∀ item ∈ items, valid item :=
  vecFor_reads .nestedVectorEntries (by decide) reads nonempty

theorem vec_reads_any {α : Type} {decode : Decoder α} {encode : α → Bytes}
    (reads : Reads decode encode fun _ => True) (nonempty : ∀ item, encode item ≠ []) :
    Reads (vec decode) (encodeVec encode) Nested := by
  intro input items rest
  rw [vec_reads reads nonempty input items rest]
  simp

@[simp] theorem encodeVec_ne_nil {α : Type} (encode : α → Bytes) (items : List α) :
    encodeVec encode items ≠ [] := by simp [encodeVec, encodeLen]

theorem fromUTF8?_eq_some {bytes : Bytes} {value : String} :
    String.fromUTF8? ⟨bytes.toArray⟩ = some value ↔ value.toByteArray.data.toList = bytes := by
  unfold String.fromUTF8?
  split
  next valid =>
    rw [Option.some_inj, ← String.toByteArray_inj]
    constructor
    · intro same
      rw [← same]
      rfl
    · rintro rfl
      rfl
  next invalid =>
    simp only [reduceCtorEq, false_iff]
    rintro rfl
    exact invalid value.isValidUTF8

theorem string_reads :
    Reads string encodeString fun value => value.toByteArray.size < 2 ^ 64 := by
  intro input value rest
  simp only [string, take, bind_eq_ok, usize_reads _ _ _, take_eq_ok, true_and]
  constructor
  · rintro ⟨len, _, rfl, bytes, middle, ⟨length, rfl⟩, h⟩
    cases found : String.fromUTF8? ⟨bytes.toArray⟩ with
    | none =>
      rw [found] at h
      simp at h
    | some text =>
      rw [found] at h
      obtain ⟨rfl, rfl⟩ := pure_eq_ok.mp h
      have same := fromUTF8?_eq_some.mp found
      have size : text.toByteArray.size = len.toNat := by
        rw [← length, ← same, Array.length_toList, ByteArray.size_data]
      refine ⟨size ▸ len.toNat_lt, ?_⟩
      rw [encodeString, size, same, UInt64.ofNat_toNat, List.append_assoc]
  · rintro ⟨bound, rfl⟩
    refine ⟨UInt64.ofNat value.toByteArray.size, value.toByteArray.data.toList ++ rest,
      by simp [encodeString], value.toByteArray.data.toList, rest, ⟨?_, rfl⟩, ?_⟩
    · rw [ofNat_toNat_of_lt bound, Array.length_toList, ByteArray.size_data]
    · rw [fromUTF8?_eq_some.mpr rfl]
      exact pure_eq_ok.mpr ⟨rfl, rfl⟩

@[simp] theorem encodeString_ne_nil (value : String) : encodeString value ≠ [] := by
  simp [encodeString]

theorem hash_reads : Reads hash encodeHash fun _ => True := by
  intro input hash rest
  simp only [Decoder.hash, take, bind_eq_ok, take_eq_ok, true_and]
  constructor
  · rintro ⟨bytes, middle, ⟨length, rfl⟩, h⟩
    rw [dif_pos length] at h
    obtain ⟨rfl, rfl⟩ := pure_eq_ok.mp h
    simp [encodeHash]
  · rintro rfl
    have length : hash.toList.length = 32 := by simp
    refine ⟨hash.toList, rest, ⟨length, rfl⟩, ?_⟩
    rw [dif_pos length]
    exact pure_eq_ok.mpr ⟨rfl, rfl⟩

theorem option_reads {α : Type} {decode : Decoder α} {encode : α → Bytes} {valid : α → Prop}
    (reads : Reads decode encode valid) :
    Reads (option decode) (encodeOption encode) fun choice => ∀ value ∈ choice, valid value := by
  intro input choice rest
  simp only [option, bind_eq_ok, byte_eq_ok]
  constructor
  · rintro ⟨tag, middle, rfl, h⟩
    split at h
    · obtain ⟨rfl, rfl⟩ := pure_eq_ok.mp h
      simp [encodeOption]
    · simp only [bind_eq_ok, pure_eq_ok, reads _ _ _] at h
      obtain ⟨value, _, ⟨valid, rfl⟩, rfl, rfl⟩ := h
      simp [encodeOption, valid]
    · simp [unsupported] at h
  · rintro ⟨all, rfl⟩
    cases choice with
    | none => simp [encodeOption, pure_eq_ok]
    | some value => simp [encodeOption, reads _ _ _, bind_eq_ok, pure_eq_ok, all value rfl]

end Decoder

end NpaCore.Wire
