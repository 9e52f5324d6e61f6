/-
UTF-8 as `encoding/json` reads it back: `DecodeRune` and `EncodeRune` of `unicode/utf8`
and the surrogate pairs of `unicode/utf16`, the pieces of `unquoteBytes` that work on
characters, against `String.utf8EncodeChar`, which writes the UTF-8 of a string.

* `decodeRune_utf8EncodeChar` — `DecodeRune` accepts the UTF-8 of every character past
  ASCII, whatever follows it, and gives its length;
* `utf8EncodeChar_spec` — the first byte of a character's UTF-8 says how many bytes follow,
  and the bytes spell the character's code;
* `stringBytes_inj` — `[]byte(s)` is one to one.

Design notes: the bit operations of `String.utf8EncodeChar` become `%` and `/` by powers
of two on `UInt8.toNat` (`utf8Byte_toNat`, `toNat_toUInt8_shiftRight`), so that `omega`
settles the byte ranges.  `decodeRune` is `DecodeRune` on bytes that start with `0x80` or
more; `unquoteBytes` reads ASCII itself.
-/
import XMongoStorage.Truncate
import Mathlib.Algebra.Group.Nat.Basic

namespace XMongoStorage

/-! ### Decoding -/

/-- `first` and `acceptRanges` of `unicode/utf8` for a byte of `0x80` or more: the size of
the character it starts and the range of the byte after it; `none` for a byte no character
starts with. -/
def acceptRange (b : Nat) : Option (Nat × Nat × Nat) :=
  if 0xC2 ≤ b ∧ b ≤ 0xDF then some (2, 0x80, 0xBF)
  else if b = 0xE0 then some (3, 0xA0, 0xBF)
  else if 0xE1 ≤ b ∧ b ≤ 0xEC then some (3, 0x80, 0xBF)
  else if b = 0xED then some (3, 0x80, 0x9F)
  else if 0xEE ≤ b ∧ b ≤ 0xEF then some (3, 0x80, 0xBF)
  else if b = 0xF0 then some (4, 0x90, 0xBF)
  else if 0xF1 ≤ b ∧ b ≤ 0xF3 then some (4, 0x80, 0xBF)
  else if b = 0xF4 then some (4, 0x80, 0x8F)
  else none

/-- `utf8.DecodeRune` on bytes that start with `b0 ≥ 0x80`: the size of the character they
start with when it is valid UTF-8, `none` where it returns `RuneError` of size 1. -/
def decodeRune (b0 : UInt8) (rest : Bytes) : Option Nat :=
  (acceptRange b0.toNat).bind fun (size, lo, hi) =>
    match rest with
    | b1 :: more =>
      if lo ≤ b1.toNat ∧ b1.toNat ≤ hi ∧ size - 2 ≤ more.length ∧
          (more.take (size - 2)).all (fun b => 0x80 ≤ b.toNat && b.toNat ≤ 0xBF) then some size
      else none
    | [] => none

/-- `utf8.EncodeRune`: the UTF-8 of the character with code `r`, and that of U+FFFD for a
surrogate or a code past U+10FFFF. -/
def encodeRune (r : Nat) : Bytes :=
  if r.isValidChar then String.utf8EncodeChar (Char.ofNat r) else [0xEF, 0xBF, 0xBD]

/-- `utf16.IsSurrogate`. -/
def isSurrogate (r : Nat) : Bool := 0xD800 ≤ r && r < 0xE000

/-- `utf16.DecodeRune`: the character of a surrogate pair, and U+FFFD for any other pair,
a missing second half included. -/
def utf16DecodeRune (r1 : Nat) : Option Nat → Nat
  | some r2 =>
    if 0xD800 ≤ r1 ∧ r1 < 0xDC00 ∧ 0xDC00 ≤ r2 ∧ r2 < 0xE000 then
      (r1 - 0xD800) * 1024 + (r2 - 0xDC00) + 0x10000
    else 0xFFFD
  | none => 0xFFFD

/-! ### Bytes as numbers -/

/-- A byte `utf8EncodeChar` writes, `x &&& (2^i - 1) ||| 2^i * a`, as a number: the low `i`
bits of `x` under the marker bits `a`. -/
theorem utf8Byte_toNat (x : UInt8) (i a : Nat) (hi : 2 ^ i ≤ 256) (ha : 2 ^ i * a < 256) :
    (x &&& UInt8.ofNat (2 ^ i - 1) ||| UInt8.ofNat (2 ^ i * a)).toNat =
      x.toNat % 2 ^ i + 2 ^ i * a := by
  have hpos : 0 < 2 ^ i := Nat.two_pow_pos i
  show (x.toBitVec &&& (UInt8.ofNat (2 ^ i - 1)).toBitVec |||
    (UInt8.ofNat (2 ^ i * a)).toBitVec).toNat = _
  rw [BitVec.toNat_or, BitVec.toNat_and]
  change x.toNat &&& (UInt8.ofNat (2 ^ i - 1)).toNat ||| (UInt8.ofNat (2 ^ i * a)).toNat = _
  rw [UInt8.toNat_ofNat_of_lt (by show _ < 256; omega), UInt8.toNat_ofNat_of_lt ha,
    Nat.and_pow_two_sub_one_eq_mod, Nat.or_comm, ← Nat.mul_add_lt_is_or (Nat.mod_lt _ hpos),
    Nat.add_comm]

/-- `byte(v >> k)` as a number. -/
theorem toNat_toUInt8_shiftRight (v k : UInt32) (hk : k.toNat < 32) :
    ((v >>> k).toUInt8).toNat = v.toNat / 2 ^ k.toNat % 256 := by
  show (BitVec.ofNat 8 (v.toBitVec >>> (k % 32).toBitVec).toNat).toNat = _
  rw [BitVec.toNat_ofNat]
  show (v.toBitVec >>> (k % 32).toNat).toNat % 2 ^ 8 = _
  rw [BitVec.toNat_ushiftRight, Nat.shiftRight_eq_div_pow]
  congr 3
  show (k.toNat % 32) = k.toNat
  omega

@[simp] theorem tail_toNat (x : UInt8) : (x &&& 0x3f ||| 0x80).toNat = x.toNat % 64 + 128 :=
  utf8Byte_toNat x 6 2 (by decide) (by decide)

@[simp] theorem lead2_toNat (x : UInt8) : (x &&& 0x1f ||| 0xc0).toNat = x.toNat % 32 + 192 :=
  utf8Byte_toNat x 5 6 (by decide) (by decide)

@[simp] theorem lead3_toNat (x : UInt8) : (x &&& 0x0f ||| 0xe0).toNat = x.toNat % 16 + 224 :=
  utf8Byte_toNat x 4 14 (by decide) (by decide)

@[simp] theorem lead4_toNat (x : UInt8) : (x &&& 0x07 ||| 0xf0).toNat = x.toNat % 8 + 240 :=
  utf8Byte_toNat x 3 30 (by decide) (by decide)

theorem toNat_toUInt8 (v : UInt32) : v.toUInt8.toNat = v.toNat % 256 :=
  BitVec.toNat_ofNat _ _

/-- The bytes `utf8EncodeChar` takes a character's bits from, as numbers. -/
theorem toNat_shifts (c : Char) :
    c.val.toUInt8.toNat = c.toNat % 256 ∧ (c.val >>> 6).toUInt8.toNat = c.toNat / 64 % 256 ∧
      (c.val >>> 12).toUInt8.toNat = c.toNat / 4096 % 256 ∧
      (c.val >>> 18).toUInt8.toNat = c.toNat / 262144 % 256 :=
  ⟨toNat_toUInt8 c.val, toNat_toUInt8_shiftRight c.val 6 (by decide),
    toNat_toUInt8_shiftRight c.val 12 (by decide), toNat_toUInt8_shiftRight c.val 18 (by decide)⟩

/-- The row of `acceptRanges` for each first byte of a three-byte character. -/
theorem acceptRange_three : ∀ t < 16, acceptRange (t + 224) =
    some (3, if t = 0 then 0xA0 else 0x80, if t = 13 then 0x9F else 0xBF) := by decide

/-- The row of `acceptRanges` for each first byte of a four-byte character up to U+10FFFF. -/
theorem acceptRange_four : ∀ t < 5, acceptRange (t + 240) =
    some (4, if t = 0 then 0x90 else 0x80, if t = 4 then 0x8F else 0xBF) := by decide

/-- The first byte of a three-byte character, and the byte after it, are in the ranges
`DecodeRune` accepts: surrogates are never written. -/
theorem acceptRange_lead3 (v : Nat) (h1 : 0x800 ≤ v) (h2 : v ≤ 0xFFFF)
    (hs : v < 0xD800 ∨ 0xDFFF < v) :
    ∃ lo hi, acceptRange (v / 4096 % 256 % 16 + 224) = some (3, lo, hi) ∧
      lo ≤ v / 64 % 256 % 64 + 128 ∧ v / 64 % 256 % 64 + 128 ≤ hi := by
  refine ⟨_, _, acceptRange_three _ (Nat.mod_lt _ (by decide)), ?_, ?_⟩ <;> split_ifs <;> omega

/-- The same for a four-byte character, up to U+10FFFF. -/
theorem acceptRange_lead4 (v : Nat) (h1 : 0x10000 ≤ v) (h2 : v < 0x110000) :
    ∃ lo hi, acceptRange (v / 262144 % 256 % 8 + 240) = some (4, lo, hi) ∧
      lo ≤ v / 4096 % 256 % 64 + 128 ∧ v / 4096 % 256 % 64 + 128 ≤ hi := by
  refine ⟨_, _, acceptRange_four _ (by omega), ?_, ?_⟩ <;> split_ifs <;> omega

/-! ### `DecodeRune` accepts what `utf8EncodeChar` writes -/

/-- `DecodeRune` accepts the UTF-8 of every character past ASCII, whatever follows it, and
gives its length. -/
theorem decodeRune_utf8EncodeChar (c : Char) (h : 0x80 ≤ c.toNat) (more : Bytes) :
    ∃ b0 tail, String.utf8EncodeChar c = b0 :: tail ∧ 0x80 ≤ b0.toNat ∧
      decodeRune b0 (tail ++ more) = some (tail.length + 1) := by
  have hvalid : c.toNat < 0xd800 ∨ (0xdfff < c.toNat ∧ c.toNat < 0x110000) := c.valid
  obtain ⟨hs0, hs6, hs12, hs18⟩ := toNat_shifts c
  unfold String.utf8EncodeChar
  dsimp only
  rw [if_neg (show ¬ c.val ≤ 0x7f from fun h' => absurd (show c.toNat ≤ 0x7f from h') (by omega))]
  by_cases h2 : c.toNat ≤ 0x7ff
  · rw [if_pos (show c.val ≤ 0x7ff from h2)]
    refine ⟨_, _, rfl, by simp only [lead2_toNat, hs6]; omega, ?_⟩
    have hacc : acceptRange (c.toNat / 64 % 256 % 32 + 192) = some (2, 0x80, 0xBF) := by
      rw [acceptRange, if_pos (by omega)]
    simp only [decodeRune, lead2_toNat, hs6, hacc, Option.some_bind, List.cons_append, tail_toNat, hs0]
    rw [if_pos ⟨by omega, by omega, by simp, rfl⟩]
    rfl
  rw [if_neg (show ¬ c.val ≤ 0x7ff from h2)]
  by_cases h3 : c.toNat ≤ 0xffff
  · rw [if_pos (show c.val ≤ 0xffff from h3)]
    refine ⟨_, _, rfl, by simp only [lead3_toNat, hs12]; omega, ?_⟩
    obtain ⟨lo, hi, hacc, hlo, hhi⟩ := acceptRange_lead3 c.toNat (by omega) h3 (by omega)
    simp only [decodeRune, lead3_toNat, hs12, hacc, Option.some_bind, List.cons_append, tail_toNat, hs6,
      hs0]
    rw [if_pos ⟨hlo, hhi, by simp, by simp; omega⟩]
    rfl
  rw [if_neg (show ¬ c.val ≤ 0xffff from h3)]
  refine ⟨_, _, rfl, by simp only [lead4_toNat, hs18]; omega, ?_⟩
  obtain ⟨lo, hi, hacc, hlo, hhi⟩ := acceptRange_lead4 c.toNat (by omega) (by omega)
  simp only [decodeRune, lead4_toNat, hs18, hacc, Option.some_bind, List.cons_append, tail_toNat, hs12,
    hs6, hs0]
  rw [if_pos ⟨hlo, hhi, by simp, by simp; omega⟩]
  rfl

/-- An ASCII character is one byte, its code. -/
theorem utf8EncodeChar_ascii (c : Char) (h : c.toNat < 128) :
    String.utf8EncodeChar c = [c.val.toUInt8] ∧ c.val.toUInt8.toNat = c.toNat := by
  have hv : c.val.toNat = c.toNat := rfl
  refine ⟨?_, by rw [toNat_toUInt8, hv]; exact Nat.mod_eq_of_lt (by omega)⟩
  unfold String.utf8EncodeChar
  rw [if_pos (show c.val ≤ 0x7f from (by omega : c.toNat ≤ 0x7f))]

theorem stringBytes_append (a b : List Char) :
    stringBytes ⟨a ++ b⟩ = stringBytes ⟨a⟩ ++ stringBytes ⟨b⟩ :=
  List.flatMap_append _ _ _

/-- `EncodeRune` of a character's code is its UTF-8. -/
theorem encodeRune_toNat (c : Char) : encodeRune c.toNat = String.utf8EncodeChar c := by
  rw [encodeRune, if_pos (show c.toNat.isValidChar from c.valid), Char.ofNat_toNat]

/-- The code a character's UTF-8 spells, as `DecodeRune` assembles it from the bytes. -/
def runeValue : Bytes → Nat
  | [b0] => b0.toNat
  | [b0, b1] => b0.toNat % 32 * 64 + b1.toNat % 64
  | [b0, b1, b2] => (b0.toNat % 16 * 64 + b1.toNat % 64) * 64 + b2.toNat % 64
  | [b0, b1, b2, b3] => ((b0.toNat % 8 * 64 + b1.toNat % 64) * 64 + b2.toNat % 64) * 64 + b3.toNat % 64
  | _ => 0

@[simp] theorem tail_toNat_mod (x : UInt8) : (x &&& 0x3f ||| 0x80).toNat % 64 = x.toNat % 64 := by
  rw [tail_toNat]; omega

@[simp] theorem lead2_toNat_mod (x : UInt8) : (x &&& 0x1f ||| 0xc0).toNat % 32 = x.toNat % 32 := by
  rw [lead2_toNat]; omega

@[simp] theorem lead3_toNat_mod (x : UInt8) : (x &&& 0x0f ||| 0xe0).toNat % 16 = x.toNat % 16 := by
  rw [lead3_toNat]; omega

@[simp] theorem lead4_toNat_mod (x : UInt8) : (x &&& 0x07 ||| 0xf0).toNat % 8 = x.toNat % 8 := by
  rw [lead4_toNat]; omega

/-- A character's UTF-8: the first byte says how many follow, and the bytes spell its code. -/
theorem utf8EncodeChar_spec (c : Char) :
    ∃ b0 tail, String.utf8EncodeChar c = b0 :: tail ∧
      tail.length =
        (if b0.toNat < 128 then 0 else if b0.toNat < 224 then 1 else if b0.toNat < 240 then 2 else 3) ∧
      runeValue (b0 :: tail) = c.toNat := by
  have hvalid : c.toNat < 0xd800 ∨ (0xdfff < c.toNat ∧ c.toNat < 0x110000) := c.valid
  obtain ⟨hs0, hs6, hs12, hs18⟩ := toNat_shifts c
  unfold String.utf8EncodeChar
  dsimp only
  by_cases h1 : c.toNat ≤ 0x7f
  · rw [if_pos (show c.val ≤ 0x7f from h1)]
    refine ⟨_, _, rfl, ?_, ?_⟩ <;> simp only [runeValue, hs0, List.length_nil]
    · split_ifs <;> omega
    · omega
  rw [if_neg (show ¬ c.val ≤ 0x7f from h1)]
  by_cases h2 : c.toNat ≤ 0x7ff
  · rw [if_pos (show c.val ≤ 0x7ff from h2)]
    refine ⟨_, _, rfl, ?_, ?_⟩
    · simp only [lead2_toNat, hs6, List.length_singleton]
      split_ifs <;> omega
    · simp only [runeValue, lead2_toNat_mod, tail_toNat_mod, hs6, hs0]
      omega
  rw [if_neg (show ¬ c.val ≤ 0x7ff from h2)]
  by_cases h3 : c.toNat ≤ 0xffff
  · rw [if_pos (show c.val ≤ 0xffff from h3)]
    refine ⟨_, _, rfl, ?_, ?_⟩
    · simp only [lead3_toNat, hs12, List.length_cons, List.length_singleton, List.length_nil]
      split_ifs <;> omega
    · simp only [runeValue, lead3_toNat_mod, tail_toNat_mod, hs12, hs6, hs0]
      omega
  rw [if_neg (show ¬ c.val ≤ 0xffff from h3)]
  refine ⟨_, _, rfl, ?_, ?_⟩
  · simp only [lead4_toNat, hs18, List.length_cons, List.length_singleton, List.length_nil]
    split_ifs <;> omega
  · simp only [runeValue, lead4_toNat_mod, tail_toNat_mod, hs18, hs12, hs6, hs0]
    omega

/-- Two characters with one UTF-8 are one character. -/
theorem utf8EncodeChar_inj {c d : Char} (h : String.utf8EncodeChar c = String.utf8EncodeChar d) :
    c = d := by
  obtain ⟨b0, tail, hc, -, hvc⟩ := utf8EncodeChar_spec c
  obtain ⟨b0', tail', hd, -, hvd⟩ := utf8EncodeChar_spec d
  rw [← Char.ofNat_toNat c, ← Char.ofNat_toNat d, ← hvc, ← hvd, ← hc, ← hd, h]

/-- `[]byte(s)` is one to one: distinct strings have distinct bytes. -/
theorem stringBytes_inj :
    ∀ {cs ds : List Char}, stringBytes ⟨cs⟩ = stringBytes ⟨ds⟩ → cs = ds
  | [], [], _ => rfl
  | [], d :: ds, h => by
    obtain ⟨b0, tail, hd, -⟩ := utf8EncodeChar_spec d
    rw [Bsoncore.stringBytes_cons, hd] at h
    cases h
  | c :: cs, [], h => by
    obtain ⟨b0, tail, hc, -⟩ := utf8EncodeChar_spec c
    rw [Bsoncore.stringBytes_cons, hc] at h
    cases h
  | c :: cs, d :: ds, h => by
    obtain ⟨b0, tail, hc, hlc, -⟩ := utf8EncodeChar_spec c
    obtain ⟨b0', tail', hd, hld, -⟩ := utf8EncodeChar_spec d
    rw [Bsoncore.stringBytes_cons, Bsoncore.stringBytes_cons, hc, hd, List.cons_append,
      List.cons_append, List.cons.injEq] at h
    obtain ⟨rfl, h⟩ := h
    obtain ⟨rfl, hrest⟩ := List.append_inj h (hlc.trans hld.symm)
    rw [utf8EncodeChar_inj (hc.trans hd.symm), stringBytes_inj hrest]

theorem stringBytes_injective {s t : String} (h : stringBytes s = stringBytes t) : s = t := by
  cases s; cases t
  exact congrArg _ (stringBytes_inj h)

/-- An ASCII string is its bytes. -/
theorem stringBytes_ascii : ∀ l : List Char, (∀ c ∈ l, c.toNat < 128) →
    stringBytes ⟨l⟩ = l.map fun c => c.val.toUInt8
  | [], _ => rfl
  | c :: l, h => by
    rw [Bsoncore.stringBytes_cons, (utf8EncodeChar_ascii c (h c (List.mem_cons_self _ _))).1,
      stringBytes_ascii l fun c hc => h c (List.mem_cons_of_mem _ hc)]
    rfl

/-- A string has at least as many bytes as characters. -/
theorem length_le_stringBytes : ∀ l : List Char, l.length ≤ (stringBytes ⟨l⟩).length
  | [] => le_rfl
  | c :: l => by
    obtain ⟨b0, tail, hc, -⟩ := utf8EncodeChar_spec c
    rw [Bsoncore.stringBytes_cons, hc, List.length_append, List.length_cons, List.length_cons]
    have := length_le_stringBytes l
    omega

end XMongoStorage
