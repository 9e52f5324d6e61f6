/-
Cutting a string to a byte budget (`Truncate` of the vendored `bsoncore` package,
`part_006`): keep at most `maxLen` bytes, stepping back from the cut while the byte there
is a UTF-8 continuation byte (`10xxxxxx`), so that no character is split.

* `backUp_spec` — the loop stops at a byte that starts a character, or at `0`, and every
  byte it stepped over is a continuation byte;
* `isContinuation_iff` — in the UTF-8 of a string, the bytes that are not continuation
  bytes are exactly those where a character starts;
* `truncate_on_rune_boundary` — for every `maxLen ≥ 0` the result is a prefix of at most
  `maxLen` bytes, and of a string's UTF-8 it is the longest prefix of at most `maxLen`
  bytes that ends between two characters; a negative `maxLen` panics.

Design notes: a Go `string` is any byte sequence, so `Truncate` takes `Bytes`; the valid
UTF-8 strings are the encodings `stringBytes t` of Lean strings, and the prefixes that end
on a rune boundary are the encodings of the prefixes of `t.data`.  `none` is the panic of
`s[:maxLen]`.
-/
import XMongoStorage.Bytes

namespace XMongoStorage

namespace Bsoncore

/-- `s[i] & 0xC0 == 0x80`: the byte continues a UTF-8 sequence. -/
def isContinuation (b : UInt8) : Bool := b &&& 0xC0 == 0x80

/-- The loop `for maxLen > 0 && maxLen < len(s) { if s[maxLen] & 0xC0 != 0x80 { break };
maxLen-- }`; `s[n]? = none` is `maxLen ≥ len(s)`. -/
def backUp (s : Bytes) : Nat → Nat
  | 0 => 0
  | n + 1 =>
    match s[n + 1]? with
    | some b => if isContinuation b then backUp s n else n + 1
    | none => n + 1

/-- `Truncate(s, maxLen)`. -/
def truncate (s : Bytes) (maxLen : Int) : Option Bytes :=
  if (s.length : Int) ≤ maxLen then some s
  else if maxLen < 0 then none
  else some (s.take (backUp s maxLen.toNat))

/-! ### The loop -/

theorem backUp_le (s : Bytes) : ∀ n, backUp s n ≤ n
  | 0 => le_rfl
  | n + 1 => by
    simp only [backUp]
    split
    · split_ifs
      · exact (backUp_le s n).trans (Nat.le_succ n)
      · exact le_rfl
    · exact le_rfl

/-- From inside `s`, the loop stops at `0` or at a byte that is not a continuation byte, and
every byte it stepped over is one. -/
theorem backUp_spec (s : Bytes) :
    ∀ n, n < s.length →
      (backUp s n = 0 ∨ ∃ b, s[backUp s n]? = some b ∧ isContinuation b = false) ∧
      ∀ q, backUp s n < q → q ≤ n → ∃ b, s[q]? = some b ∧ isContinuation b = true
  | 0, _ => ⟨.inl rfl, fun q h₁ h₂ => absurd h₂ (by omega)⟩
  | n + 1, hn => by
    obtain ⟨b, hb⟩ : ∃ b, s[n + 1]? = some b := ⟨_, List.getElem?_eq_getElem hn⟩
    by_cases hc : isContinuation b
    · have hstep : backUp s (n + 1) = backUp s n := by simp only [backUp, hb, hc, if_true]
      obtain ⟨hstop, hskip⟩ := backUp_spec s n (by omega)
      refine ⟨hstep ▸ hstop, fun q h₁ h₂ => ?_⟩
      rcases Nat.lt_or_eq_of_le h₂ with h₂ | rfl
      · exact hskip q (hstep ▸ h₁) (by omega)
      · exact ⟨b, hb, hc⟩
    · have hstep : backUp s (n + 1) = n + 1 := by simp [backUp, hb, hc]
      rw [hstep]
      exact ⟨.inr ⟨b, hb, by simpa using hc⟩, fun q h₁ h₂ => absurd h₂ (by omega)⟩

/-! ### Continuation bytes of UTF-8 -/

/-- The bytes `String.utf8EncodeChar` writes after the first: bit by bit, whatever `x`. -/
theorem isContinuation_tail (x : UInt8) : isContinuation (x &&& 63 ||| 128) = true := by
  simp only [isContinuation, beq_iff_eq]
  refine congrArg UInt8.mk (BitVec.eq_of_getLsbD_eq fun i => ?_)
  show ((x.toBitVec &&& 63#8 ||| 128#8) &&& 192#8).getLsbD i = (128#8).getLsbD i
  simp only [BitVec.getLsbD_and, BitVec.getLsbD_or]
  generalize x.toBitVec.getLsbD i = b
  revert b i; decide

/-- A byte with bit 6 set is not a continuation byte. -/
theorem isContinuation_or_of_bit6 (y c : UInt8) (hc : c.toBitVec.getLsbD 6 = true) :
    isContinuation (y ||| c) = false := by
  simp only [isContinuation, beq_eq_false_iff_ne]
  intro h
  have h6 : ((y.toBitVec ||| c.toBitVec) &&& 192#8).getLsbD 6 = (128#8).getLsbD 6 :=
    congrArg (fun b : UInt8 => b.toBitVec.getLsbD 6) h
  simp only [BitVec.getLsbD_and, BitVec.getLsbD_or, hc, Bool.or_true, Bool.true_and] at h6
  exact absurd h6 (by decide)

/-- The first bytes of a two-, three- and four-byte character. -/
theorem isContinuation_lead (x : UInt8) : isContinuation (x &&& 31 ||| 192) = false ∧
    isContinuation (x &&& 15 ||| 224) = false ∧ isContinuation (x &&& 7 ||| 240) = false :=
  ⟨isContinuation_or_of_bit6 _ _ (by decide), isContinuation_or_of_bit6 _ _ (by decide),
    isContinuation_or_of_bit6 _ _ (by decide)⟩

/-- An ASCII byte: `x &&& 0xC0 ≤ x < 128`. -/
theorem isContinuation_ascii (x : UInt8) (h : x.toNat < 128) : isContinuation x = false := by
  have hle : (x &&& 0xC0).toNat ≤ x.toNat := by
    show (x.toBitVec &&& _).toNat ≤ _
    rw [BitVec.toNat_and]
    exact Nat.and_le_left
  simp only [isContinuation, beq_eq_false_iff_ne, ne_eq]
  intro h2
  rw [h2] at hle
  simp only [UInt8.reduceToNat] at hle
  omega

/-- One character's UTF-8: a byte that is not a continuation byte, then continuation bytes. -/
theorem utf8EncodeChar_shape (c : Char) : ∃ b rest, String.utf8EncodeChar c = b :: rest ∧
    isContinuation b = false ∧ ∀ x ∈ rest, isContinuation x = true := by
  unfold String.utf8EncodeChar
  dsimp only
  split_ifs with h₁
  · refine ⟨_, [], rfl, isContinuation_ascii _ ?_, by simp⟩
    have h : c.val.toBitVec.toNat ≤ 127 := h₁
    show (UInt8.ofNat c.val.toBitVec.toNat).toNat < 128
    simp only [UInt8.toNat, UInt8.ofNat, BitVec.toNat_ofNat]
    omega
  · exact ⟨_, _, rfl, (isContinuation_lead _).1, by simp [isContinuation_tail]⟩
  · exact ⟨_, _, rfl, (isContinuation_lead _).2.1, by simp [isContinuation_tail]⟩
  · exact ⟨_, _, rfl, (isContinuation_lead _).2.2, by simp [isContinuation_tail]⟩

@[simp] theorem stringBytes_nil : stringBytes ⟨[]⟩ = [] := rfl

@[simp] theorem stringBytes_cons (c : Char) (cs : List Char) :
    stringBytes ⟨c :: cs⟩ = String.utf8EncodeChar c ++ stringBytes ⟨cs⟩ := rfl

/-- The UTF-8 of a prefix of the characters is a prefix of the UTF-8. -/
theorem stringBytes_take_append (cs : List Char) (i : Nat) :
    stringBytes ⟨cs.take i⟩ ++ stringBytes ⟨cs.drop i⟩ = stringBytes ⟨cs⟩ := by
  simp only [stringBytes, ← List.flatMap_append, List.take_append_drop]

/-- The character prefixes of `c :: cs` are the empty one and `c` before one of `cs`. -/
theorem exists_take_cons_length (c : Char) (cs : List Char) (p : Nat) :
    (∃ i, (stringBytes ⟨(c :: cs).take i⟩).length = p) ↔
      p = 0 ∨ ∃ i, (String.utf8EncodeChar c).length + (stringBytes ⟨cs.take i⟩).length = p := by
  constructor
  · rintro ⟨_ | i, hi⟩
    · exact .inl hi.symm
    · exact .inr ⟨i, by simpa using hi⟩
  · rintro (rfl | ⟨i, hi⟩)
    · exact ⟨0, rfl⟩
    · exact ⟨i + 1, by simpa using hi⟩

/-- **Rune boundaries.**  In the UTF-8 of a string, a byte is not a continuation byte exactly
where a character starts. -/
theorem isContinuation_iff :
    ∀ (cs : List Char) {p : Nat} {b : UInt8}, (stringBytes ⟨cs⟩)[p]? = some b →
      (isContinuation b = false ↔ ∃ i, (stringBytes ⟨cs.take i⟩).length = p)
  | [], p, b, h => by simp [stringBytes] at h
  | c :: cs, p, b, h => by
    obtain ⟨b₀, rest, hc, hb₀, hrest⟩ := utf8EncodeChar_shape c
    have hlen : (String.utf8EncodeChar c).length = rest.length + 1 := by rw [hc]; rfl
    rw [exists_take_cons_length, hlen]
    rw [stringBytes_cons] at h
    by_cases hp : p < rest.length + 1
    · rw [List.getElem?_append_left (by omega), hc] at h
      cases p with
      | zero =>
        obtain rfl : b₀ = b := by simpa using h
        exact iff_of_true hb₀ (.inl rfl)
      | succ p =>
        simp only [List.getElem?_cons_succ] at h
        rw [hrest b (List.getElem?_mem h)]
        exact iff_of_false (by simp) (by omega)
    · rw [List.getElem?_append_right (by omega), hlen] at h
      rw [isContinuation_iff cs h]
      constructor
      · rintro ⟨i, hi⟩; exact .inr ⟨i, by omega⟩
      · rintro (rfl | ⟨i, hi⟩)
        · omega
        · exact ⟨i, by omega⟩

/-! ### Truncate -/

/-- Whatever a non-negative `maxLen`, the result is a prefix of at most `maxLen` bytes. -/
theorem truncate_prefix (s : Bytes) {maxLen : Int} (h0 : 0 ≤ maxLen) :
    ∃ r, truncate s maxLen = some r ∧ r <+: s ∧ (r.length : Int) ≤ maxLen := by
  unfold truncate
  split_ifs with hle hneg
  · exact ⟨s, rfl, List.prefix_refl s, hle⟩
  · omega
  · refine ⟨_, rfl, List.take_prefix _ s, ?_⟩
    have := backUp_le s maxLen.toNat
    simp only [List.length_take]
    omega

/-- Of a string's UTF-8, the result is the UTF-8 of the longest prefix of the characters
that fits in `maxLen` bytes. -/
theorem truncate_stringBytes (cs : List Char) {maxLen : Int} (h0 : 0 ≤ maxLen) :
    ∃ i, truncate (stringBytes ⟨cs⟩) maxLen = some (stringBytes ⟨cs.take i⟩) ∧
      ((stringBytes ⟨cs.take i⟩).length : Int) ≤ maxLen ∧
      ∀ j, ((stringBytes ⟨cs.take j⟩).length : Int) ≤ maxLen →
        (stringBytes ⟨cs.take j⟩).length ≤ (stringBytes ⟨cs.take i⟩).length := by
  have hprefix : ∀ j, (stringBytes ⟨cs.take j⟩).length ≤ (stringBytes ⟨cs⟩).length := fun j => by
    rw [← stringBytes_take_append cs j, List.length_append]; omega
  by_cases hle : ((stringBytes ⟨cs⟩).length : Int) ≤ maxLen
  · refine ⟨cs.length, ?_, ?_, fun j _ => ?_⟩
    · rw [List.take_length]; exact if_pos hle
    · rwa [List.take_length]
    · rw [List.take_length]; exact hprefix j
  -- the cut falls inside the string: the loop backs up to a character's start
  set s := stringBytes ⟨cs⟩
  have hn : maxLen.toNat < s.length := by omega
  obtain ⟨hstop, hskip⟩ := backUp_spec s _ hn
  obtain ⟨i, hi⟩ : ∃ i, (stringBytes ⟨cs.take i⟩).length = backUp s maxLen.toNat := by
    rcases hstop with h | ⟨b, hb, hc⟩
    · exact ⟨0, by rw [h]; rfl⟩
    · exact (isContinuation_iff cs hb).mp hc
  have htake : s.take (backUp s maxLen.toNat) = stringBytes ⟨cs.take i⟩ := by
    have := @List.take_left' _ (stringBytes ⟨cs.take i⟩) (stringBytes ⟨cs.drop i⟩) _ rfl
    rwa [stringBytes_take_append, hi] at this
  refine ⟨i, ?_, ?_, fun j hj => ?_⟩
  · simp only [truncate, if_neg hle, if_neg (show ¬ maxLen < 0 by omega), htake]
  · have := backUp_le s maxLen.toNat; omega
  · by_contra hlt
    obtain ⟨b, hb, hc⟩ := hskip (stringBytes ⟨cs.take j⟩).length (by omega) (by omega)
    have := ((isContinuation_iff cs hb).mpr ⟨j, rfl⟩).symm.trans hc
    exact Bool.false_ne_true this

/-- A negative `maxLen` panics: it passes the length check and skips the loop. -/
theorem truncate_neg (s : Bytes) {maxLen : Int} (hneg : maxLen < 0) : truncate s maxLen = none := by
  rw [truncate, if_neg (by omega), if_pos hneg]

/-- **`Truncate` cuts on a rune boundary.**  For every `maxLen ≥ 0` the result is a prefix of
the bytes of at most `maxLen` bytes; of the UTF-8 of a string it is the UTF-8 of a prefix of
its characters, the longest within `maxLen` bytes, so the longest prefix of at most `maxLen`
bytes that ends between two characters.  A negative `maxLen` panics. -/
theorem truncate_on_rune_boundary :
    (∀ (s : Bytes) (maxLen : Int), maxLen < 0 → truncate s maxLen = none) ∧
    (∀ (s : Bytes) (maxLen : Int), 0 ≤ maxLen →
      ∃ r, truncate s maxLen = some r ∧ r <+: s ∧ (r.length : Int) ≤ maxLen) ∧
    (∀ (t : String) (maxLen : Int), 0 ≤ maxLen →
      ∃ i, truncate (stringBytes t) maxLen = some (stringBytes ⟨t.data.take i⟩) ∧
        ((stringBytes ⟨t.data.take i⟩).length : Int) ≤ maxLen ∧
        ∀ j, ((stringBytes ⟨t.data.take j⟩).length : Int) ≤ maxLen →
          (stringBytes ⟨t.data.take j⟩).length ≤ (stringBytes ⟨t.data.take i⟩).length) :=
  ⟨fun s _ h => truncate_neg s h, fun s _ h => truncate_prefix s h,
    fun t _ h => truncate_stringBytes t.data h⟩

/-- `Truncate("héllo", 2)` keeps `h` alone: byte 2 continues `é`. -/
example : truncate (stringBytes "héllo") 2 = some (stringBytes "h") := rfl

/-- `Truncate("abc", -1)` panics. -/
theorem truncate_abc_negative : truncate (stringBytes "abc") (-1) = none := rfl

end Bsoncore

end XMongoStorage
