/-
Byte strings and their order.

Keys and values of the B+Tree are Go `[]byte` slices.  A `nil` slice and an empty one
compare, copy and measure alike, so both are the empty list here; where the code tells
them apart (`endKey != nil` in `BTree.Range`) the model carries an `Option Bytes`.

`compareBytes` is the loop of `record_id.go`, and it is also what `bytes.Compare`
computes for the B+Tree: bytewise, and a proper prefix sorts first.

* `compareBytes_eq_iff` — the comparison answers `.eq` exactly on equal strings;
* `compareBytes_swap` — swapping the arguments swaps the answer;
* `Before.trans` — `.lt` is transitive,

so `Before a b := compareBytes a b = .lt` is a strict total order (`before_or_eq_or_after`).
-/
import Mathlib.Data.List.Basic

namespace XMongoStorage

/-- A Go `[]byte`. -/
abbrev Bytes := List UInt8

/-- Go's `[]byte(s)`: the UTF-8 bytes of `s`. -/
def stringBytes (s : String) : Bytes := s.data.flatMap String.utf8EncodeChar

/-- `compareBytes` (`record_id.go`) and `bytes.Compare`: the first differing byte decides,
otherwise the shorter string is smaller. -/
def compareBytes : Bytes → Bytes → Ordering
  | [], [] => .eq
  | [], _ :: _ => .lt
  | _ :: _, [] => .gt
  | a :: as, b :: bs => if a < b then .lt else if b < a then .gt else compareBytes as bs

theorem UInt8.eq_of_not_lt_of_not_lt {a b : UInt8} (h₁ : ¬ a < b) (h₂ : ¬ b < a) : a = b := by
  rw [UInt8.not_lt] at h₁ h₂
  exact UInt8.eq_of_toBitVec_eq (BitVec.le_antisymm h₂ h₁)

@[simp] theorem compareBytes_self (a : Bytes) : compareBytes a a = .eq := by
  induction a with
  | nil => rfl
  | cons x xs ih => simp [compareBytes, ih]

theorem compareBytes_eq_iff {a b : Bytes} : compareBytes a b = .eq ↔ a = b := by
  induction a generalizing b with
  | nil => cases b <;> simp [compareBytes]
  | cons x xs ih =>
    cases b with
    | nil => simp [compareBytes]
    | cons y ys =>
      simp only [compareBytes, List.cons.injEq]
      by_cases h₁ : x < y
      · simp [h₁, UInt8.ne_of_lt h₁]
      · by_cases h₂ : y < x
        · simp [h₁, h₂, (UInt8.ne_of_lt h₂).symm]
        · simp [h₁, h₂, ih, UInt8.eq_of_not_lt_of_not_lt h₁ h₂]

theorem compareBytes_swap (a b : Bytes) : compareBytes b a = (compareBytes a b).swap := by
  induction a generalizing b with
  | nil => cases b <;> rfl
  | cons x xs ih =>
    cases b with
    | nil => rfl
    | cons y ys =>
      simp only [compareBytes]
      by_cases h₁ : x < y
      · simp [h₁, UInt8.lt_asymm h₁, Ordering.swap]
      · by_cases h₂ : y < x
        · simp [h₁, h₂, Ordering.swap]
        · simp [h₁, h₂, ih]

/-- `a` sorts strictly before `b`: `bytes.Compare(a, b) < 0`. -/
def Before (a b : Bytes) : Prop := compareBytes a b = .lt

instance : DecidableRel Before := fun a b => inferInstanceAs (Decidable (compareBytes a b = .lt))

theorem Before.irrefl (a : Bytes) : ¬ Before a a := by simp [Before]

theorem Before.trans {a b c : Bytes} (h₁ : Before a b) (h₂ : Before b c) : Before a c := by
  induction a generalizing b c with
  | nil => cases b <;> cases c <;> simp_all [Before, compareBytes]
  | cons x xs ih =>
    cases b with
    | nil => simp [Before, compareBytes] at h₁
    | cons y ys =>
      cases c with
      | nil => simp [Before, compareBytes] at h₂
      | cons z zs =>
        simp only [Before, compareBytes] at h₁ h₂ ⊢
        by_cases hxy : x < y
        · by_cases hyz : y < z
          · simp [UInt8.lt_trans hxy hyz]
          · by_cases hzy : z < y
            · simp [hyz, hzy] at h₂
            · cases UInt8.eq_of_not_lt_of_not_lt hyz hzy; simp [hxy]
        · by_cases hyx : y < x
          · simp [hxy, hyx] at h₁
          · cases UInt8.eq_of_not_lt_of_not_lt hxy hyx
            by_cases hyz : x < z
            · simp [hyz]
            · by_cases hzy : z < x
              · simp [hyz, hzy] at h₂
              · cases UInt8.eq_of_not_lt_of_not_lt hyz hzy
                simp only [hxy, if_false] at h₁ h₂ ⊢
                exact ih h₁ h₂

theorem Before.asymm {a b : Bytes} (h : Before a b) : ¬ Before b a := fun h' =>
  Before.irrefl a (h.trans h')

theorem before_or_eq_or_after (a b : Bytes) : Before a b ∨ a = b ∨ Before b a := by
  unfold Before
  rw [compareBytes_swap a b, ← compareBytes_eq_iff]
  cases compareBytes a b <;> simp [Ordering.swap]

theorem not_before_iff {a b : Bytes} : ¬ Before a b ↔ a = b ∨ Before b a := by
  rcases before_or_eq_or_after a b with h | h | h
  · simp [h, h.asymm, show a ≠ b by rintro rfl; exact Before.irrefl a h]
  · subst h; simp [Before.irrefl]
  · simp [h, h.asymm, show a ≠ b by rintro rfl; exact Before.irrefl a h]

/-- Every non-empty string sorts at or after `[0]`, the smallest of them. -/
theorem zero_before_or_eq {a : Bytes} (h : a ≠ []) : a = [0] ∨ Before [0] a := by
  match a, h with
  | x :: xs, _ =>
    by_cases hx : (0 : UInt8) < x
    · right; simp [Before, compareBytes, hx]
    · have hx0 : x = 0 := UInt8.eq_of_not_lt_of_not_lt
        (by simp [UInt8.lt_def, BitVec.lt_def]) hx
      subst hx0
      cases xs with
      | nil => left; rfl
      | cons y ys => right; simp [Before, compareBytes]

end XMongoStorage
