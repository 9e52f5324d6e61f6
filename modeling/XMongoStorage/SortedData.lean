/-
The B+Tree index (`BTreeIndex`, the `SortedDataInterface` of the storage layer).

An entry of the index is one key of its B+Tree: the composite key
`[len(key) as 4 big-endian bytes] ++ key ++ AsBytes(recordId)`, whose value is the
RecordId's bytes again.  `numEntries` is a counter kept beside the tree: `Insert` adds one
after every successful tree insert and `Remove` subtracts one after every successful tree
delete.

* `parseCompositeKey_makeCompositeKey` — the composite key parses back into the index key
  and the RecordId's bytes (for keys shorter than `2^32` bytes);
* `makeCompositeKey_inj` — so two entries share a composite key exactly when they share
  the index key and the RecordId's bytes;
* `compositeKey_roundtrip_below_four_gib` — the same for the cursor's `Key()`, and
  `long_key_parses_empty` — a key of `2^32` bytes parses back as the empty key;
* `numEntries_counts_upserts` — inserting one pair twice into a non-unique index counts
  two entries for the one the tree holds, and a `Remove` then leaves `IsEmpty()` false on
  an empty tree;
* `seek_yields_other_key`, `unique_insert_rejects_absent_key`, `seekRange_skips_longer_key`
  — the length in front of the key orders entries by key length first, so `Seek` and the
  uniqueness check see a longer bound than the key's own entries, and `SeekRange` is not
  byte order;
* `cursor_recordId_compares_one` — a cursor's RecordId, rebuilt from bytes, never
  compares equal to the integer RecordId it was inserted with;
* `history_seekRange_effect` — the entries themselves are kept right where the counter is
  not: after any history from a new index, each call changes the entries `SeekRange(nil,
  nil)` yields by its own entry alone (`Effect`, from `Delete`'s and `Insert`'s tree
  specs);
* `history_numEntries_at_least` — and the counter errs one way only: it never counts fewer
  entries than there are, so `IsEmpty()` is right whenever it reports an empty index; each
  call moves it by one, or clears it, by its kind and outcome alone (`countAfter`).

Design notes: the index name is carried by the source for its messages and statistics
only, and is left out.  The lock guards nothing but the counter; in the sequential model
here it is invisible (`Concurrent.lean` splits the calls into their atomic steps).
-/
import XMongoStorage.RecordStore

namespace XMongoStorage

open BTree

/-- `BTreeIndex` without its lock and name. -/
structure BTreeIndex where
  tree : BTree
  unique : Bool
  numEntries : Int

namespace BTreeIndex

/-- `NewSortedDataInterface`: an order-128 tree and no entries. -/
def newSortedDataInterface (unique : Bool) : BTreeIndex :=
  { tree := newBTree 128, unique, numEntries := 0 }

/-- Go's `byte(n)`: the low eight bits. -/
def lowByte (n : Nat) : UInt8 := UInt8.ofNat n

/-- `makeCompositeKey`: the key's length in four big-endian bytes, the key, and the
RecordId's bytes (none for the null RecordId). -/
def makeCompositeKey (key : Bytes) (recordId : RecordId) : Bytes :=
  let recordIdBytes := recordId.asBytes.getD []
  [lowByte (key.length >>> 24), lowByte (key.length >>> 16), lowByte (key.length >>> 8),
    lowByte key.length] ++ key ++ recordIdBytes

/-- `parseCompositeKey`. -/
def parseCompositeKey (composite : Bytes) : Except String (Bytes × RecordId) :=
  match composite with
  | b0 :: b1 :: b2 :: b3 :: rest =>
    let keyLen := b0.toNat <<< 24 ||| b1.toNat <<< 16 ||| b2.toNat <<< 8 ||| b3.toNat
    if rest.length < keyLen then .error "组合键格式错误"
    else .ok (rest.take keyLen, .bytes (rest.drop keyLen))
  | _ => .error "组合键太短"

/-- `makeNextKey`: the composite key of `key ++ [0xFF]` with no RecordId, the upper bound
of the scans for `key`. -/
def makeNextKey (key : Bytes) : Bytes := makeCompositeKey (key ++ [0xFF]) .null

/-- `keyExists`: whether the scan from `key`'s composite key to `makeNextKey key` finds
anything. -/
def keyExists (idx : BTreeIndex) (key : Bytes) : Option Bool :=
  (idx.tree.range (makeCompositeKey key .null) (some (makeNextKey key))).map fun keys =>
    decide (0 < keys.length)

/-- The tree insert and counter update that end `Insert`. -/
def insertEntry (idx : BTreeIndex) (key : Bytes) (recordId : RecordId) :
    Option (BTreeIndex × Except String Unit) :=
  (idx.tree.insert (makeCompositeKey key recordId) (recordId.asBytes.getD [])).map fun
    | .error e => (idx, .error ("插入索引失败: " ++ e))
    | .ok tree => ({ idx with tree, numEntries := idx.numEntries + 1 }, .ok ())

/-- `Insert`. -/
def insert (idx : BTreeIndex) (key : Bytes) (recordId : RecordId) :
    Option (BTreeIndex × Except String Unit) :=
  if key.length = 0 then some (idx, .error "索引键不能为空")
  else if recordId.isNull then some (idx, .error "RecordId 不能为空")
  else if idx.unique then
    (idx.keyExists key).bind fun found =>
      if found then
        some (idx, .error ("唯一索引约束违反: 键 " ++ RecordId.hexBytes key ++ " 已存在"))
      else idx.insertEntry key recordId
  else idx.insertEntry key recordId

/-- `Remove`. -/
def remove (idx : BTreeIndex) (key : Bytes) (recordId : RecordId) :
    Option (BTreeIndex × Except String Unit) :=
  if key.length = 0 then some (idx, .error "索引键不能为空")
  else if recordId.isNull then some (idx, .error "RecordId 不能为空")
  else (idx.tree.delete (makeCompositeKey key recordId)).map fun
    | .error e => (idx, .error ("删除索引失败: " ++ e))
    | .ok tree => ({ idx with tree, numEntries := idx.numEntries - 1 }, .ok ())

/-- `Seek`: the composite keys and values the cursor for `key` walks. -/
def seek (idx : BTreeIndex) (key : Bytes) : Option (Except String (List (Bytes × Bytes))) :=
  if key.length = 0 then some (.error "索引键不能为空")
  else (idx.tree.range (makeCompositeKey key .null) (some (makeNextKey key))).map .ok

/-- `SeekRange`; `none` is a `nil` bound. -/
def seekRange (idx : BTreeIndex) (startKey endKey : Option Bytes) : Option (List (Bytes × Bytes)) :=
  idx.tree.range ((startKey.map fun k => makeCompositeKey k .null).getD [])
    (endKey.map fun k => makeCompositeKey k .null)

/-- `btreeIndexCursor.Key`: the index key inside a composite key, `nil` if malformed. -/
def cursorKey (compositeKey : Bytes) : Option Bytes :=
  match parseCompositeKey compositeKey with
  | .ok (key, _) => some key
  | .error _ => none

/-- `btreeIndexCursor.RecordId`: a RecordId rebuilt from the entry's value. -/
def cursorRecordId (value : Bytes) : RecordId := .bytes value

/-- `NumEntries`. -/
def numEntriesOf (idx : BTreeIndex) : Int := idx.numEntries

/-- `IsEmpty`. -/
def isEmpty (idx : BTreeIndex) : Bool := idx.numEntries == 0

/-- `Clear`. -/
def clear (idx : BTreeIndex) : BTreeIndex := { idx with tree := newBTree 128, numEntries := 0 }

/-- The calls of a sequential history of an index. -/
inductive Call
  | insert (key : Bytes) (recordId : RecordId)
  | remove (key : Bytes) (recordId : RecordId)
  | clear

/-- One call: the index after it and the error it reports, if any. -/
def exec (idx : BTreeIndex) : Call → Option (BTreeIndex × Except String Unit)
  | .insert key recordId => idx.insert key recordId
  | .remove key recordId => idx.remove key recordId
  | .clear => some (idx.clear, .ok ())

/-- A sequential history. -/
def runIndex (idx : BTreeIndex) : List Call → Option BTreeIndex
  | [] => some idx
  | call :: calls => (idx.exec call).bind fun r => r.1.runIndex calls

/-! ### `Insert` on a valid tree -/

/-- `keyExists` returns on a valid tree. -/
theorem keyExists_ne_none {idx : BTreeIndex} (hV : idx.tree.Valid) (key : Bytes) :
    idx.keyExists key ≠ none := by
  obtain ⟨hS, L, hC⟩ := hV
  obtain ⟨r, hr⟩ := range_some hS hC (makeCompositeKey key .null) (some (makeNextKey key))
  simp [keyExists, hr]

/-- The tree insert that ends `Insert` returns on a valid tree, and keeps it valid. -/
theorem insertEntry_valid {idx : BTreeIndex} (hV : idx.tree.Valid) (key : Bytes)
    (recordId : RecordId) : ∃ r, idx.insertEntry key recordId = some r ∧ r.1.tree.Valid := by
  obtain ⟨r, hr, hv⟩ := insert_valid hV (makeCompositeKey key recordId) (recordId.asBytes.getD [])
  rw [insertEntry, hr]
  cases r with
  | error e => exact ⟨_, rfl, hV⟩
  | ok t => exact ⟨_, rfl, hv t rfl⟩

/-- `Insert` returns on a valid tree, and keeps it valid. -/
theorem insert_keeps_valid {idx : BTreeIndex} (hV : idx.tree.Valid) (key : Bytes)
    (recordId : RecordId) : ∃ r, idx.insert key recordId = some r ∧ r.1.tree.Valid := by
  unfold BTreeIndex.insert
  by_cases h₁ : key.length = 0
  · rw [if_pos h₁]; exact ⟨_, rfl, hV⟩
  by_cases h₂ : recordId.isNull
  · rw [if_neg h₁, if_pos h₂]; exact ⟨_, rfl, hV⟩
  rw [if_neg h₁, if_neg h₂]
  by_cases h₃ : idx.unique
  · obtain ⟨found, hfound⟩ := Option.ne_none_iff_exists'.mp (keyExists_ne_none hV key)
    rw [if_pos h₃, hfound, Option.some_bind]
    cases found
    · rw [if_neg Bool.false_ne_true]; exact insertEntry_valid hV key recordId
    · rw [if_pos rfl]; exact ⟨_, rfl, hV⟩
  · rw [if_neg h₃]; exact insertEntry_valid hV key recordId

/-! ### The entries of an index -/

theorem makeCompositeKey_ne_nil (key : Bytes) (recordId : RecordId) :
    makeCompositeKey key recordId ≠ [] := by
  simp [makeCompositeKey]

/-- The tree insert that ends `Insert`, when it succeeds, puts the entry in the place of the
entry `Get` finds for its composite key, if any, and keeps every other entry. -/
theorem insertEntry_ok {idx idx' : BTreeIndex} (hS : idx.tree.Shape) {L : List Nat}
    (hC : idx.tree.Chained L) {key : Bytes} {recordId : RecordId} {u : Unit}
    (h : idx.insertEntry key recordId = some (idx', .ok u)) :
    ∃ L', idx'.tree.Shape ∧ idx'.tree.Chained L' ∧ ∃ P, ∃ old : Option Bytes, ∃ S,
      entriesOf idx.tree L = P ++ old.toList.map (makeCompositeKey key recordId, ·) ++ S ∧
      entriesOf idx'.tree L' = P ++ [(makeCompositeKey key recordId, recordId.asBytes.getD [])] ++ S := by
  obtain ⟨old, t', -, hins, hS', L', hC', P, S, hE, hE'⟩ :=
    insert_chained hS hC (makeCompositeKey_ne_nil key recordId) (recordId.asBytes.getD [])
  simp only [insertEntry, hins, Option.map_some', Option.some.injEq, Prod.mk.injEq] at h
  obtain ⟨rfl, -⟩ := h
  exact ⟨L', hS', hC', P, old, S, hE, hE'⟩

/-- `Insert` either fails before its tree insert, changing nothing, or is its tree insert
and counter update. -/
theorem insert_cases {idx : BTreeIndex} {key : Bytes} {recordId : RecordId}
    {r : BTreeIndex × Except String Unit} (h : idx.insert key recordId = some r) :
    (r.1 = idx ∧ ∃ e, r.2 = .error e) ∨ idx.insertEntry key recordId = some r := by
  unfold BTreeIndex.insert at h
  by_cases h₁ : key.length = 0
  · rw [if_pos h₁] at h; cases h; exact .inl ⟨rfl, _, rfl⟩
  by_cases h₂ : recordId.isNull
  · rw [if_neg h₁, if_pos h₂] at h; cases h; exact .inl ⟨rfl, _, rfl⟩
  rw [if_neg h₁, if_neg h₂] at h
  by_cases h₃ : idx.unique
  · rw [if_pos h₃] at h
    obtain ⟨found, -, h⟩ := Option.bind_eq_some.mp h
    cases found
    · rw [if_neg Bool.false_ne_true] at h; exact .inr h
    · rw [if_pos rfl] at h; cases h; exact .inl ⟨rfl, _, rfl⟩
  · rw [if_neg h₃] at h; exact .inr h

/-- A successful `Insert` is its tree insert and counter update. -/
theorem insertEntry_of_insert_ok {idx idx' : BTreeIndex} {key : Bytes} {recordId : RecordId}
    {u : Unit} (h : idx.insert key recordId = some (idx', .ok u)) :
    idx.insertEntry key recordId = some (idx', .ok u) :=
  (insert_cases h).resolve_left fun ⟨_, _, he⟩ => by cases he

/-- A successful `Insert` puts its entry in the place of the entry `Get` finds for its
composite key, if any, and keeps every other entry. -/
theorem insert_ok {idx idx' : BTreeIndex} (hS : idx.tree.Shape) {L : List Nat}
    (hC : idx.tree.Chained L) {key : Bytes} {recordId : RecordId} {u : Unit}
    (h : idx.insert key recordId = some (idx', .ok u)) :
    ∃ L', idx'.tree.Shape ∧ idx'.tree.Chained L' ∧ ∃ P, ∃ old : Option Bytes, ∃ S,
      entriesOf idx.tree L = P ++ old.toList.map (makeCompositeKey key recordId, ·) ++ S ∧
      entriesOf idx'.tree L' = P ++ [(makeCompositeKey key recordId, recordId.asBytes.getD [])] ++ S :=
  insertEntry_ok hS hC (insertEntry_of_insert_ok h)

/-- A successful `Insert` counts one more entry. -/
theorem insert_numEntries {idx idx' : BTreeIndex} {key : Bytes} {recordId : RecordId} {u : Unit}
    (h : idx.insert key recordId = some (idx', .ok u)) : idx'.numEntries = idx.numEntries + 1 := by
  obtain ⟨r, -, h⟩ := Option.map_eq_some'.mp (insertEntry_of_insert_ok h)
  split at h <;> cases h
  rfl

/-- A failed `Insert` leaves the index as it was. -/
theorem insert_error {idx idx' : BTreeIndex} {key : Bytes} {recordId : RecordId} {e : String}
    (h : idx.insert key recordId = some (idx', .error e)) : idx' = idx := by
  rcases insert_cases h with ⟨h, -⟩ | h
  · exact h
  · obtain ⟨r, -, h⟩ := Option.map_eq_some'.mp h
    split at h <;> cases h
    rfl

/-- `SeekRange(nil, nil)` yields every entry of the index. -/
theorem seekRange_none {idx : BTreeIndex} (hS : idx.tree.Shape) {L : List Nat}
    (hC : idx.tree.Chained L) : idx.seekRange none none = some (entriesOf idx.tree L) :=
  range_nil hS hC

/-! ### The composite key format -/

/-- Or-ing a number into the zero low bits of another adds it. -/
theorem or_eq_add_of_mod_eq_zero {x y k : Nat} (hx : x % 2 ^ k = 0) (hy : y < 2 ^ k) :
    x ||| y = x + y := by
  have hxk : x + y = 2 ^ k * (x / 2 ^ k) + y := by have := Nat.div_add_mod x (2 ^ k); omega
  apply Nat.eq_of_testBit_eq
  intro j
  rw [hxk, Nat.testBit_mul_pow_two_add _ hy, Nat.testBit_or]
  split
  · rename_i hj
    have h := Nat.testBit_mod_two_pow x k j
    rw [hx, Nat.zero_testBit, decide_eq_true hj, Bool.true_and] at h
    rw [← h, Bool.false_or]
  · rename_i hj
    have hy' : y.testBit j = false :=
      Nat.testBit_lt_two_pow (Nat.lt_of_lt_of_le hy (Nat.pow_le_pow_right (by omega) (by omega)))
    rw [hy', Bool.or_false, ← Nat.shiftRight_eq_div_pow, Nat.testBit_shiftRight,
      Nat.add_sub_cancel' (by omega)]

/-- The four length bytes read back as the length. -/
theorem lowBytes_toNat {n : Nat} (hn : n < 2 ^ 32) :
    (lowByte (n >>> 24)).toNat <<< 24 ||| (lowByte (n >>> 16)).toNat <<< 16 |||
      (lowByte (n >>> 8)).toNat <<< 8 ||| (lowByte n).toNat = n := by
  simp only [lowByte, UInt8.toNat, UInt8.ofNat, BitVec.toNat_ofNat, Nat.shiftLeft_eq,
    Nat.shiftRight_eq_div_pow, Nat.reducePow]
  generalize ha : n / 16777216 % 256 * 16777216 = a
  generalize hb : n / 65536 % 256 * 65536 = b
  generalize hc : n / 256 % 256 * 256 = c
  rw [or_eq_add_of_mod_eq_zero (x := a) (y := b) (k := 24) (by omega) (by omega),
    or_eq_add_of_mod_eq_zero (x := a + b) (y := c) (k := 16) (by omega) (by omega),
    or_eq_add_of_mod_eq_zero (x := a + b + c) (k := 8) (by omega) (by omega)]
  omega

theorem parseCompositeKey_makeCompositeKey {key : Bytes} (hkey : key.length < 2 ^ 32)
    (recordId : RecordId) :
    parseCompositeKey (makeCompositeKey key recordId) = .ok (key, .bytes (recordId.asBytes.getD [])) := by
  simp only [makeCompositeKey, List.cons_append, List.nil_append, parseCompositeKey, lowBytes_toNat hkey,
    List.length_append]
  simp

theorem makeCompositeKey_inj {key key' : Bytes} (hkey : key.length < 2 ^ 32)
    (hkey' : key'.length < 2 ^ 32) (recordId recordId' : RecordId) :
    makeCompositeKey key recordId = makeCompositeKey key' recordId' ↔
      key = key' ∧ recordId.asBytes.getD [] = recordId'.asBytes.getD [] := by
  constructor
  · intro h
    have := congrArg parseCompositeKey h
    rw [parseCompositeKey_makeCompositeKey hkey, parseCompositeKey_makeCompositeKey hkey'] at this
    simpa using this
  · rintro ⟨rfl, h⟩
    simp only [makeCompositeKey, h]

/-- **Composite keys round-trip below `2^32` bytes.**  For every non-empty key shorter than
`2^32` bytes and every non-null RecordId, the composite key parses back into the key and a
RecordId with the same bytes, `Key()` of its entry is the key, and two such pairs share a
composite key exactly when they share the key and the RecordId's bytes. -/
theorem compositeKey_roundtrip_below_four_gib :
    ∀ (key : Bytes) (recordId : RecordId), key ≠ [] → key.length < 2 ^ 32 →
      recordId.isNull = false →
      (∃ parsed : RecordId, parseCompositeKey (makeCompositeKey key recordId) = .ok (key, parsed) ∧
        parsed.asBytes = recordId.asBytes) ∧
      cursorKey (makeCompositeKey key recordId) = some key ∧
      ∀ (key' : Bytes) (recordId' : RecordId), key' ≠ [] → key'.length < 2 ^ 32 →
        recordId'.isNull = false →
        (makeCompositeKey key recordId = makeCompositeKey key' recordId' ↔
          key = key' ∧ recordId.asBytes = recordId'.asBytes) := by
  intro key recordId _ hkey hnull
  have hparse := parseCompositeKey_makeCompositeKey hkey recordId
  refine ⟨⟨_, hparse, RecordId.asBytes_getD hnull⟩, by rw [cursorKey, hparse], ?_⟩
  intro key' recordId' _ hkey' hnull'
  rw [makeCompositeKey_inj hkey hkey']
  refine Iff.rfl.and ⟨fun h => ?_, fun h => by rw [h]⟩
  rw [← RecordId.asBytes_getD hnull, ← RecordId.asBytes_getD hnull', h]

/-- The key `[1]` with the RecordId `1` comes back from its entry. -/
theorem compositeKey_one_roundtrips : cursorKey (makeCompositeKey [1] (.long 1)) = some [1] :=
  (compositeKey_roundtrip_below_four_gib [1] (.long 1) (by decide) (by decide) rfl).2.1

/-- A key of exactly `2^32` bytes writes the length bytes of `0`. -/
theorem parseCompositeKey_wraps {key : Bytes} (hkey : key.length = 2 ^ 32) (recordId : RecordId) :
    parseCompositeKey (makeCompositeKey key recordId) = .ok ([], .bytes (key ++ recordId.asBytes.getD [])) := by
  have hlen : [lowByte (key.length >>> 24), lowByte (key.length >>> 16), lowByte (key.length >>> 8),
      lowByte key.length] = [0, 0, 0, 0] := by rw [hkey]; rfl
  rw [makeCompositeKey, hlen]
  rfl

/-- A key of `2^32` bytes parses back as the empty key, the whole key moving into the
RecordId, and `Key()` of its entry is empty. -/
theorem long_key_parses_empty :
    parseCompositeKey (makeCompositeKey (List.replicate (2 ^ 32) 1) (.long 1)) =
        .ok ([], .bytes (List.replicate (2 ^ 32) 1 ++ RecordId.putUint64 1)) ∧
      cursorKey (makeCompositeKey (List.replicate (2 ^ 32) 1) (.long 1)) = some [] := by
  have h := parseCompositeKey_wraps (List.length_replicate _ (1 : UInt8)) (.long 1)
  exact ⟨h, by rw [cursorKey, h]⟩

/-! ### The counter against the tree -/

/-- The same pair inserted twice into a non-unique index, then removed once. -/
def twiceInserted : List Call := [.insert [1] (.long 1), .insert [1] (.long 1)]

/-- Two inserts of one pair count two entries while the tree holds one; after one
`Remove` the tree is empty and `IsEmpty()` still answers false. -/
theorem numEntries_counts_upserts :
    ((newSortedDataInterface false).runIndex twiceInserted).map
        (fun idx => (idx.numEntries, idx.tree.size)) = some (2, some 1) ∧
      ((newSortedDataInterface false).runIndex (twiceInserted ++ [.remove [1] (.long 1)])).map
        (fun idx => (idx.isEmpty, idx.tree.size)) = some (false, some 0) := by
  decide

/-! ### Scans by key

The composite key starts with the key's length, so the tree orders entries by key length
first.  `makeNextKey key` is the composite key of a key one byte longer: every entry whose
key has `key`'s length and sorts after it lies below that bound too. -/

/-- Two keys of one length in a non-unique index. -/
def sameLengthKeys : List Call := [.insert [1] (.long 1), .insert [2] (.long 2)]

/-- `Seek([1])` on `sameLengthKeys` walks both entries, and `Key()` of the second is `[2]`. -/
theorem seek_yields_other_key :
    (((newSortedDataInterface false).runIndex sameLengthKeys).bind fun idx => idx.seek [1]).map
        (fun r => r.map fun es => es.map fun e => cursorKey e.1) =
      some (.ok [some [1], some [2]]) := by
  rfl

/-- A unique index holding only the key `[2]` rejects an `Insert` of `[1]` as a duplicate,
and leaves its one entry alone. -/
theorem unique_insert_rejects_absent_key :
    (((newSortedDataInterface true).runIndex [.insert [2] (.long 1)]).bind fun idx =>
        (idx.tree.range [] none).bind fun entries =>
          (idx.insert [1] (.long 2)).map fun r =>
            (entries.map Prod.fst, r.2, r.1.tree.range [] none == some entries)) =
      some ([makeCompositeKey [2] (.long 1)], (.error "唯一索引约束违反: 键 01 已存在" : Except String Unit),
        true) := by
  rfl

/-- The two-byte key `[1, 5]` lies between `[1]` and `[2]` in byte order, but
`SeekRange([1], [2])` does not yield it. -/
theorem seekRange_skips_longer_key :
    Before [1] [1, 5] ∧ Before [1, 5] [2] ∧
      (((newSortedDataInterface false).runIndex [.insert [1, 5] (.long 1)]).bind fun idx =>
        idx.seekRange (some [1]) (some [2])) = some [] := by
  decide

/-- An index cursor's RecordId never compares equal to the integer RecordId it was stored
under: the bytes come back as a byte-string RecordId.  The index test of `TestKVEngine`
(`Insert("Alice", 100)`, then `Seek("Alice")`) meets it. -/
theorem cursor_recordId_compares_one :
    (∀ x : BitVec 64, (RecordId.newRecordIdFromBytes
        ((RecordId.newRecordIdFromLong x).asBytes.getD [])).compare (RecordId.newRecordIdFromLong x) = 1) ∧
      (((newSortedDataInterface false).runIndex [.insert (stringBytes "Alice") (.long 100)]).bind
          fun idx => idx.seek (stringBytes "Alice")).map
        (fun r => r.map fun es => es.map fun e => (cursorRecordId e.2).compare (.long 100)) =
        some (.ok [1]) :=
  ⟨fun x => RecordId.compare_bytes_long _ x, rfl⟩

/-! ### What a call does to the entries -/

/-- `Delete` succeeds only on a key `Get` finds. -/
theorem get_of_delete_ok {t t' : BTree} {key : Bytes} (h : t.delete key = some (.ok t')) :
    ∃ old, t.get key = some (some old) := by
  unfold BTree.delete at h
  by_cases hk : key = []
  · rw [if_pos hk] at h; cases h
  rw [if_neg hk] at h
  obtain ⟨leaf, hfind, h⟩ := Option.map_eq_some'.mp h
  split at h
  · cases h
  · rename_i i hi
    exact ⟨(t.node leaf).values.getD i [], by simp only [BTree.get, if_neg hk, hfind, hi,
      Option.map_some']⟩

/-- `Remove` returns on a valid tree, and keeps it valid. -/
theorem remove_keeps_valid {idx : BTreeIndex} (hV : idx.tree.Valid) (key : Bytes)
    (recordId : RecordId) : ∃ r, idx.remove key recordId = some r ∧ r.1.tree.Valid := by
  unfold BTreeIndex.remove
  by_cases h₁ : key.length = 0
  · rw [if_pos h₁]; exact ⟨_, rfl, hV⟩
  by_cases h₂ : recordId.isNull
  · rw [if_neg h₁, if_pos h₂]; exact ⟨_, rfl, hV⟩
  rw [if_neg h₁, if_neg h₂]
  obtain ⟨r, hr, hv⟩ := delete_valid hV (makeCompositeKey key recordId)
  rw [hr]
  cases r with
  | error e => exact ⟨_, rfl, hV⟩
  | ok t => exact ⟨_, rfl, hv t rfl⟩

/-- `Remove` either fails, changing nothing, or is a successful tree delete of its
composite key and the counter update. -/
theorem remove_cases {idx : BTreeIndex} {key : Bytes} {recordId : RecordId}
    {r : BTreeIndex × Except String Unit} (h : idx.remove key recordId = some r) :
    (r.1 = idx ∧ ∃ e, r.2 = .error e) ∨ ∃ t',
      idx.tree.delete (makeCompositeKey key recordId) = some (.ok t') ∧
      r = ({ idx with tree := t', numEntries := idx.numEntries - 1 }, .ok ()) := by
  unfold BTreeIndex.remove at h
  by_cases h₁ : key.length = 0
  · rw [if_pos h₁] at h; cases h; exact .inl ⟨rfl, _, rfl⟩
  by_cases h₂ : recordId.isNull
  · rw [if_neg h₁, if_pos h₂] at h; cases h; exact .inl ⟨rfl, _, rfl⟩
  rw [if_neg h₁, if_neg h₂] at h
  obtain ⟨r', hdel, h⟩ := Option.map_eq_some'.mp h
  cases r' with
  | error e => cases h; exact .inl ⟨rfl, _, rfl⟩
  | ok t' => exact .inr ⟨t', hdel, h.symm⟩

/-- A failed `Remove` leaves the index as it was. -/
theorem remove_error {idx idx' : BTreeIndex} {key : Bytes} {recordId : RecordId} {e : String}
    (h : idx.remove key recordId = some (idx', .error e)) : idx' = idx := by
  rcases remove_cases h with ⟨h, -⟩ | ⟨t', -, h⟩
  · exact h
  · cases h

/-- A successful `Remove` is a successful tree delete of its composite key, and the counter
update. -/
theorem delete_of_remove_ok {idx idx' : BTreeIndex} {key : Bytes} {recordId : RecordId}
    {u : Unit} (h : idx.remove key recordId = some (idx', .ok u)) :
    ∃ t', idx.tree.delete (makeCompositeKey key recordId) = some (.ok t') ∧
      idx' = { idx with tree := t', numEntries := idx.numEntries - 1 } := by
  rcases remove_cases h with ⟨-, e, he⟩ | ⟨t', hdel, h⟩
  · cases he
  · exact ⟨t', hdel, (Prod.mk.inj h).1⟩

/-- A successful `Remove` removes the entry `Get` finds under its composite key, and keeps
every other entry. -/
theorem remove_ok {idx idx' : BTreeIndex} (hS : idx.tree.Shape) {L : List Nat}
    (hC : idx.tree.Chained L) {key : Bytes} {recordId : RecordId} {u : Unit}
    (h : idx.remove key recordId = some (idx', .ok u)) :
    idx'.tree.Shape ∧ idx'.tree.Chained L ∧ ∃ P old S,
      entriesOf idx.tree L = P ++ [(makeCompositeKey key recordId, old)] ++ S ∧
      entriesOf idx'.tree L = P ++ S := by
  obtain ⟨t', hdel, rfl⟩ := delete_of_remove_ok h
  obtain ⟨old, hget⟩ := get_of_delete_ok hdel
  obtain ⟨t'', hdel', hS', hC', P, S, hE, hE'⟩ := delete_chained hS hC hget
  obtain rfl : t' = t'' := Except.ok.inj (Option.some.inj (hdel.symm.trans hdel'))
  exact ⟨hS', hC', P, old, S, hE, hE'⟩

/-- A failed call leaves the index as it was. -/
theorem exec_error {idx idx' : BTreeIndex} {call : Call} {e : String}
    (h : idx.exec call = some (idx', .error e)) : idx' = idx := by
  cases call with
  | insert => exact insert_error h
  | remove => exact remove_error h
  | clear => cases h

/-- Every call returns on a valid tree, and keeps it valid. -/
theorem exec_keeps_valid {idx : BTreeIndex} (hV : idx.tree.Valid) :
    ∀ call : Call, ∃ r, idx.exec call = some r ∧ r.1.tree.Valid
  | .insert key recordId => insert_keeps_valid hV key recordId
  | .remove key recordId => remove_keeps_valid hV key recordId
  | .clear => ⟨_, rfl, newBTree_valid 128⟩

theorem runIndex_valid : ∀ (calls : List Call) (idx : BTreeIndex), idx.tree.Valid →
    ∃ idx', idx.runIndex calls = some idx' ∧ idx'.tree.Valid
  | [], _, hV => ⟨_, rfl, hV⟩
  | call :: calls, _, hV => by
    obtain ⟨r, hr, hV'⟩ := exec_keeps_valid hV call
    simpa only [runIndex, hr, Option.some_bind] using runIndex_valid calls r.1 hV'

/-- The abstract index: what a call may do to the entries `SeekRange(nil, nil)` yields, in
their order.  A failed call changes nothing; a successful `Insert` puts its entry, the
composite key with the RecordId's bytes, either in the place of one entry under that
composite key or at one place among the others, whether or not another entry holds that
composite key (`Get` can miss a stored key, `BTreeRouting.lean`); `Remove` removes an entry
under its composite key; `Clear` removes all. -/
def Effect (entries : List (Bytes × Bytes)) (call : Call) :
    Except String Unit → List (Bytes × Bytes) → Prop
  | .error _, entries' => entries' = entries
  | .ok (), entries' =>
    match call with
    | .insert key recordId =>
      ∃ P, ∃ old : Option Bytes, ∃ S,
        entries = P ++ old.toList.map (makeCompositeKey key recordId, ·) ++ S ∧
        entries' = P ++ [(makeCompositeKey key recordId, recordId.asBytes.getD [])] ++ S
    | .remove key recordId =>
      ∃ P old S, entries = P ++ [(makeCompositeKey key recordId, old)] ++ S ∧ entries' = P ++ S
    | .clear => entries' = []

/-- One call changes the entries of `SeekRange(nil, nil)` as `Effect` says. -/
theorem exec_effect {idx : BTreeIndex} (hS : idx.tree.Shape) {L : List Nat}
    (hC : idx.tree.Chained L) {call : Call} {r : BTreeIndex × Except String Unit}
    (h : idx.exec call = some r) :
    ∃ entries', r.1.seekRange none none = some entries' ∧
      Effect (entriesOf idx.tree L) call r.2 entries' := by
  obtain ⟨idx', e | ⟨⟨⟩⟩⟩ := r
  · rw [exec_error h]; exact ⟨_, seekRange_none hS hC, rfl⟩
  cases call with
  | insert key recordId =>
    obtain ⟨L', hS', hC', P, old, S, hE, hE'⟩ := insert_ok hS hC h
    exact ⟨_, seekRange_none hS' hC', P, old, S, hE, hE'⟩
  | remove key recordId =>
    obtain ⟨hS', hC', P, old, S, hE, hE'⟩ := remove_ok hS hC h
    exact ⟨_, seekRange_none hS' hC', P, old, S, hE, hE'⟩
  | clear =>
    cases h
    exact ⟨_, seekRange_none (newBTree_shape 128) (newBTree_chained 128), rfl⟩

/-- **No call loses or duplicates another call's entry.**  After every sequential history
from a new index, unique or not, the next call returns and changes the entries
`SeekRange(nil, nil)` yields by its own entry alone: a successful `Insert` puts its entry in
the place of one under its composite key or adds it, `Remove` removes one under its
composite key, `Clear` removes all, and a failed call changes nothing. -/
theorem history_seekRange_effect (unique : Bool) (calls : List Call) (call : Call) :
    ∃ idx r entries entries', (newSortedDataInterface unique).runIndex calls = some idx ∧
      idx.exec call = some r ∧ idx.seekRange none none = some entries ∧
      r.1.seekRange none none = some entries' ∧ Effect entries call r.2 entries' := by
  obtain ⟨idx, hrun, hS, L, hC⟩ := runIndex_valid calls (newSortedDataInterface unique) (newBTree_valid 128)
  obtain ⟨r, hr, -⟩ := exec_keeps_valid ⟨hS, L, hC⟩ call
  obtain ⟨entries', hscan, heff⟩ := exec_effect hS hC hr
  exact ⟨idx, r, _, entries', hrun, hr, seekRange_none hS hC, hscan, heff⟩

/-! ### The counter never counts too few -/

/-- The counter after a call, as the call sets it: a successful `Insert` adds one, a
successful `Remove` subtracts one, `Clear` sets it to zero, and a failed call leaves it. -/
def countAfter (n : Int) (call : Call) : Except String Unit → Int
  | .error _ => n
  | .ok () =>
    match call with
    | .insert _ _ => n + 1
    | .remove _ _ => n - 1
    | .clear => 0

/-- Each call sets the counter as `countAfter` says, whatever it does to the tree. -/
theorem exec_numEntries {idx : BTreeIndex} {call : Call} {r : BTreeIndex × Except String Unit}
    (h : idx.exec call = some r) : r.1.numEntries = countAfter idx.numEntries call r.2 := by
  obtain ⟨idx', e | ⟨⟨⟩⟩⟩ := r
  · rw [exec_error h]; rfl
  cases call with
  | insert => exact insert_numEntries h
  | remove => obtain ⟨t', -, rfl⟩ := delete_of_remove_ok h; rfl
  | clear => cases h; rfl

/-- The index invariant: a valid tree, and `NumEntries()` at least the number of entries
`SeekRange(nil, nil)` yields. -/
def Counted (idx : BTreeIndex) : Prop :=
  idx.tree.Valid ∧ ∃ entries, idx.seekRange none none = some entries ∧
    (entries.length : Int) ≤ idx.numEntries

theorem counted_new (unique : Bool) : (newSortedDataInterface unique).Counted := by
  refine ⟨newBTree_valid 128, [], ?_, le_refl _⟩
  have h : (newSortedDataInterface unique).seekRange none none =
      some (entriesOf (newBTree 128) [0]) :=
    seekRange_none (newBTree_shape 128) (newBTree_chained 128)
  rwa [entriesOf_newBTree] at h

/-- **Step lemma.**  Every call returns, and keeps the invariant: an `Insert` that replaces
an entry counts one entry too many, but none counts one too few. -/
theorem Counted.exec {idx : BTreeIndex} (hI : idx.Counted) (call : Call) :
    ∃ r, idx.exec call = some r ∧ r.1.Counted := by
  obtain ⟨⟨hS, L, hC⟩, entries, hscan, hle⟩ := hI
  rw [seekRange_none hS hC, Option.some.injEq] at hscan
  subst hscan
  obtain ⟨r, hr, hV'⟩ := exec_keeps_valid ⟨hS, L, hC⟩ call
  obtain ⟨entries', hscan', heff⟩ := exec_effect hS hC hr
  refine ⟨r, hr, hV', entries', hscan', ?_⟩
  rw [exec_numEntries hr]
  obtain ⟨idx', e | ⟨⟨⟩⟩⟩ := r
  · rwa [show entries' = _ from heff]
  cases call with
  | insert key recordId =>
    obtain ⟨P, old, S, hE, rfl⟩ := heff
    rw [hE] at hle
    simp only [countAfter, List.length_append, List.length_map, List.length_singleton,
      Nat.cast_add, Nat.cast_one] at hle ⊢
    omega
  | remove key recordId =>
    obtain ⟨P, old, S, hE, rfl⟩ := heff
    rw [hE] at hle
    simp only [countAfter, List.length_append, List.length_singleton, Nat.cast_add,
      Nat.cast_one] at hle ⊢
    omega
  | clear =>
    obtain rfl : entries' = [] := heff
    rfl

theorem Counted.runIndex : ∀ (calls : List Call) {idx : BTreeIndex}, idx.Counted →
    ∃ idx', idx.runIndex calls = some idx' ∧ idx'.Counted
  | [], _, hI => ⟨_, rfl, hI⟩
  | call :: calls, _, hI => by
    obtain ⟨r, hr, hI'⟩ := hI.exec call
    simpa only [BTreeIndex.runIndex, hr, Option.some_bind] using Counted.runIndex calls hI'

/-- **`IsEmpty()` is right when it says the index is empty.**  After every sequential
history from a new index, unique or not, `NumEntries()` is at least the number of entries
`SeekRange(nil, nil)` yields, so an index that `IsEmpty()` reports empty has no entries;
and the next call returns and sets the counter as `countAfter` says, an `Insert` that
replaces an entry adding one all the same.  The converse fails once that happens. -/
theorem history_numEntries_at_least (unique : Bool) (calls : List Call) (call : Call) :
    ∃ idx entries r, (newSortedDataInterface unique).runIndex calls = some idx ∧
      idx.seekRange none none = some entries ∧ (entries.length : Int) ≤ idx.numEntriesOf ∧
      (idx.isEmpty = true → entries = []) ∧
      idx.exec call = some r ∧ r.1.numEntriesOf = countAfter idx.numEntriesOf call r.2 := by
  obtain ⟨idx, hrun, hI, entries, hscan, hle⟩ := Counted.runIndex calls (counted_new unique)
  obtain ⟨r, hr, -⟩ := Counted.exec ⟨hI, entries, hscan, hle⟩ call
  refine ⟨idx, entries, r, hrun, hscan, hle, fun hempty => ?_, hr, exec_numEntries hr⟩
  have hzero : idx.numEntries = 0 := by simpa [isEmpty] using hempty
  exact List.eq_nil_of_length_eq_zero (by omega)

end BTreeIndex

end XMongoStorage
