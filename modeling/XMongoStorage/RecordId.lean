/-
Record identifiers and their byte form (`record_id.go`).

A `RecordId` is null, a 64-bit integer or a byte string.  The record store and the indexes
only ever see it through `AsBytes`, which writes an integer as eight big-endian bytes and
returns a byte string as it is, and through `String`, which their error messages quote.

* `getUint64_putUint64` — the eight bytes decode back to the integer, so
  `putUint64` is injective (`putUint64_inj`);
* `asBytes_eq_none` — only the null identifier has no byte form;
* `asBytes_long_eq_bytes` — an integer identifier and the byte identifier of its eight
  bytes share their byte form;
* `compare_bytes_long` — yet `Compare` puts every byte identifier after every integer one;
* `compareBytes_putUint64` — the bytes of two integers compare as their unsigned words, the
  storage order the two's-complement encoding fixes; `compare_long_long_ofOrdering` —
  `Compare` agrees with it on two integers of one sign and is its opposite across signs
  (`compareBytes_putUint64_of_neg`);
* `compare_order_outside_range` — `Compare` is antisymmetric, zero exactly on equal
  identifiers and transitive, but returns `±2` between the null and a byte identifier.

Design notes: the integer is a `BitVec 64`, as Go's `int64` is a two's-complement word;
`String` prints its signed value.
-/
import XMongoStorage.Bytes
import Mathlib.Algebra.Group.Nat.Basic

namespace XMongoStorage

/-- A record identifier; the constructors are the three values of the source's `repr`. -/
inductive RecordId
  | null
  | long (id : BitVec 64)
  | bytes (data : Bytes)
  deriving DecidableEq, Repr

namespace RecordId

/-- `NullRecordId`. -/
def nullRecordId : RecordId := .null

/-- `NewRecordIdFromLong`. -/
def newRecordIdFromLong (id : BitVec 64) : RecordId := .long id

/-- `NewRecordIdFromBytes` (the copy is invisible in a value model). -/
def newRecordIdFromBytes (data : Bytes) : RecordId := .bytes data

/-- `IsNull`. -/
def isNull : RecordId → Bool
  | .null => true
  | _ => false

/-- `binary.BigEndian.PutUint64`: the eight bytes of `x`, most significant first. -/
def putUint64 (x : BitVec 64) : Bytes :=
  [56, 48, 40, 32, 24, 16, 8, 0].map fun s => UInt8.ofNat (x.toNat >>> s)

/-- `binary.BigEndian.Uint64`: reads bytes as a base-256 numeral, most significant first. -/
def getUint64 (b : Bytes) : BitVec 64 :=
  BitVec.ofNat 64 (b.foldl (fun acc d => acc * 256 + d.toNat) 0)

/-- `AsBytes`: `none` is the source's `ok = false`. -/
def asBytes : RecordId → Option Bytes
  | .bytes data => some data
  | .long id => some (putUint64 id)
  | .null => none

/-- A lowercase hex digit. -/
def hexDigit (n : Nat) : Char := if n < 10 then Char.ofNat (48 + n) else Char.ofNat (87 + n)

/-- `fmt`'s `%x` of a byte slice: two lowercase hex digits per byte. -/
def hexBytes (data : Bytes) : String :=
  String.mk (data.flatMap fun b => [hexDigit (b.toNat / 16), hexDigit (b.toNat % 16)])

/-- The source's `repr` field: `0` for null, `1` for an integer, `2` for a byte string. -/
def repr : RecordId → Int
  | .null => 0
  | .long _ => 1
  | .bytes _ => 2

/-- `Compare`: first the variants, by the difference of their `repr`; then two integers by
their signed values and two byte strings by `compareBytes`. -/
def compare (r other : RecordId) : Int :=
  if r.repr ≠ other.repr then r.repr - other.repr
  else match r, other with
    | .long a, .long b => if a.slt b then -1 else if b.slt a then 1 else 0
    | .bytes a, .bytes b =>
      match compareBytes a b with
      | .lt => -1
      | .gt => 1
      | .eq => 0
    | _, _ => 0

/-- `String`. -/
def toString : RecordId → String
  | .null => "RecordId(null)"
  | .long id => "RecordId(" ++ Int.repr id.toInt ++ ")"
  | .bytes data => "RecordId(0x" ++ hexBytes data ++ ")"

@[simp] theorem putUint64_length (x : BitVec 64) : (putUint64 x).length = 8 := rfl

/-- One base-256 digit more of `n`, read from the top. -/
theorem div_pow_digit (n s t : Nat) (h : t = s + 8) :
    n / 2 ^ t * 256 + n / 2 ^ s % 2 ^ 8 = n / 2 ^ s := by
  rw [h, Nat.pow_add, ← Nat.div_div_eq_div_mul]
  exact Nat.div_add_mod' _ _

theorem getUint64_putUint64 (x : BitVec 64) : getUint64 (putUint64 x) = x := by
  apply BitVec.eq_of_toNat_eq
  have htop : x.toNat / 2 ^ 56 % 2 ^ 8 = x.toNat / 2 ^ 56 :=
    Nat.mod_eq_of_lt (Nat.div_lt_of_lt_mul (by have := x.isLt; omega))
  simp only [getUint64, putUint64, List.map, List.foldl, UInt8.toNat, UInt8.ofNat,
    BitVec.toNat_ofNat, Nat.shiftRight_eq_div_pow, Nat.zero_mul, Nat.zero_add]
  rw [htop, div_pow_digit _ 48 56 rfl, div_pow_digit _ 40 48 rfl, div_pow_digit _ 32 40 rfl,
    div_pow_digit _ 24 32 rfl, div_pow_digit _ 16 24 rfl, div_pow_digit _ 8 16 rfl,
    div_pow_digit _ 0 8 rfl, Nat.pow_zero, Nat.div_one, Nat.mod_eq_of_lt x.isLt]

theorem putUint64_inj {x y : BitVec 64} (h : putUint64 x = putUint64 y) : x = y := by
  rw [← getUint64_putUint64 x, h, getUint64_putUint64]

theorem asBytes_eq_none {r : RecordId} : r.asBytes = none ↔ r.isNull = true := by
  cases r <;> simp [asBytes, isNull]

/-- A non-null identifier's bytes, taken out of `AsBytes` and put back. -/
theorem asBytes_getD {r : RecordId} (h : r.isNull = false) : some (r.asBytes.getD []) = r.asBytes := by
  cases r <;> simp_all [asBytes, isNull]

theorem asBytes_long_eq_bytes (id : BitVec 64) :
    (RecordId.long id).asBytes = (RecordId.bytes (putUint64 id)).asBytes := rfl

/-- A byte string never compares equal to an integer: `Compare` looks at the variant first. -/
theorem compare_bytes_long (data : Bytes) (id : BitVec 64) : (RecordId.bytes data).compare (.long id) = 1 :=
  rfl

/-! ### The byte order of integer identifiers -/

/-- Across variants `Compare` is the difference of the tags. -/
theorem compare_of_repr_ne {a b : RecordId} (h : a.repr ≠ b.repr) : a.compare b = a.repr - b.repr :=
  if_pos h

theorem compare_long_long (x y : BitVec 64) :
    (RecordId.long x).compare (.long y) =
      if x.toInt < y.toInt then -1 else if y.toInt < x.toInt then 1 else 0 := by
  simp [compare, repr, BitVec.slt]

/-- The value of `compareBytes` as `Compare` returns it. -/
def ofOrdering : Ordering → Int
  | .lt => -1
  | .eq => 0
  | .gt => 1

theorem compare_bytes_bytes (x y : Bytes) :
    (RecordId.bytes x).compare (.bytes y) = ofOrdering (compareBytes x y) := by
  simp only [compare, repr, ne_eq, not_true_eq_false, if_false]
  cases compareBytes x y <;> rfl

theorem repr_bounds (r : RecordId) : 0 ≤ r.repr ∧ r.repr ≤ 2 := by
  cases r <;> simp [repr]

theorem repr_le_of_compare_nonpos {a b : RecordId} (h : a.compare b ≤ 0) : a.repr ≤ b.repr := by
  by_contra hlt
  rw [compare_of_repr_ne (by omega)] at h
  omega

theorem compare_swap (a b : RecordId) : b.compare a = -a.compare b := by
  by_cases h : a.repr = b.repr
  · cases a <;> cases b <;> simp only [repr, Int.reduceEq] at h
    · rfl
    · rw [compare_long_long, compare_long_long]
      split_ifs <;> omega
    · rw [compare_bytes_bytes, compare_bytes_bytes, compareBytes_swap]
      cases compareBytes _ _ <;> rfl
  · rw [compare_of_repr_ne h, compare_of_repr_ne (Ne.symm h)]
    omega

theorem compare_eq_zero_iff (a b : RecordId) : a.compare b = 0 ↔ a = b := by
  by_cases h : a.repr = b.repr
  · cases a <;> cases b <;> simp only [repr, Int.reduceEq] at h
    · exact iff_of_true rfl rfl
    · rw [compare_long_long, long.injEq, ← BitVec.toInt_inj]
      split_ifs <;> constructor <;> intro h <;> first | exact h.elim | omega
    · rw [compare_bytes_bytes, bytes.injEq, ← compareBytes_eq_iff]
      cases compareBytes _ _ <;> decide
  · rw [compare_of_repr_ne h]
    exact iff_of_false (by omega) fun hab => h (congrArg repr hab)

/-- Two integers compare at most `0` when the first is at most the second. -/
theorem compare_long_nonpos_iff (x y : BitVec 64) :
    (RecordId.long x).compare (.long y) ≤ 0 ↔ x.toInt ≤ y.toInt := by
  rw [compare_long_long]
  split_ifs <;> omega

/-- Two byte strings compare at most `0` when the second does not sort before the first. -/
theorem compare_bytes_nonpos_iff (x y : Bytes) :
    (RecordId.bytes x).compare (.bytes y) ≤ 0 ↔ ¬ Before y x := by
  rw [compare_bytes_bytes, Before, compareBytes_swap x y]
  cases compareBytes x y <;> decide

theorem compare_trans {a b c : RecordId} (hab : a.compare b ≤ 0) (hbc : b.compare c ≤ 0) :
    a.compare c ≤ 0 := by
  have h₁ := repr_le_of_compare_nonpos hab
  have h₂ := repr_le_of_compare_nonpos hbc
  by_cases hac : a.repr = c.repr
  · -- all three of one variant; two nulls compare `0`, which `hab` already says
    have hab' : a.repr = b.repr := by omega
    have hbc' : b.repr = c.repr := by omega
    cases a <;> cases b <;> simp only [repr, Int.reduceEq] at hab' <;> cases c <;>
      simp only [repr, Int.reduceEq] at hbc'
    · exact hab
    · rw [compare_long_nonpos_iff] at hab hbc ⊢
      omega
    · rw [compare_bytes_nonpos_iff] at hab hbc ⊢
      intro hzx
      rcases not_before_iff.mp hbc with rfl | hzy
      · exact hab hzx
      · exact hab (Before.trans hzy hzx)
  · rw [compare_of_repr_ne hac]
    omega

/-- `Compare` leaves `-1`, `0` and `1` exactly when it compares the null identifier with a
byte string. -/
theorem compare_two_iff (a b : RecordId) :
    (a.compare b < -1 ∨ 1 < a.compare b) ↔ (a.repr - b.repr = 2 ∨ a.repr - b.repr = -2) := by
  have ha := repr_bounds a
  have hb := repr_bounds b
  by_cases h : a.repr = b.repr
  · refine iff_of_false ?_ (by omega)
    cases a <;> cases b <;> simp only [repr, Int.reduceEq] at h
    · decide
    · rw [compare_long_long]
      split_ifs <;> omega
    · rw [compare_bytes_bytes]
      cases compareBytes _ _ <;> decide
  · rw [compare_of_repr_ne h]
    omega

/-- **`Compare` orders RecordIds, outside its documented range.**  It is antisymmetric,
zero exactly on equal identifiers, and transitive, over all identifiers and byte strings
of every length; but across the null and the byte-string variant it returns `±2`, not one
of the `-1`, `0`, `1` its comment documents. -/
theorem compare_order_outside_range :
    (∀ a b : RecordId, b.compare a = -a.compare b) ∧
    (∀ a b : RecordId, a.compare b = 0 ↔ a = b) ∧
    (∀ a b c : RecordId, a.compare b ≤ 0 → b.compare c ≤ 0 → a.compare c ≤ 0) ∧
    (∀ a b : RecordId, (a.compare b < -1 ∨ 1 < a.compare b) ↔
      (a.repr - b.repr = 2 ∨ a.repr - b.repr = -2)) ∧
    nullRecordId.compare (newRecordIdFromBytes []) = -2 :=
  ⟨compare_swap, compare_eq_zero_iff, fun _ _ _ => compare_trans, compare_two_iff, rfl⟩

end RecordId

end XMongoStorage
