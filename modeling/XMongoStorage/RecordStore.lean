/-
The record store (`record_store.go`): records in a B+Tree keyed by their RecordId's bytes,
with two counters kept beside the tree.

Every call checks the RecordId, turns it into its key (`recordKey`), looks the key up and
only then writes the tree and adjusts the counters.  The calls here run one at a time; the
store's lock is not modelled, and neither are the atomics: in a sequential history an
atomic add is an add.

* `exec_error` — a call that reports an error leaves the store as it was;
* `Counted.exec` — from a store whose counters agree with the leaf chain of its tree
  (`BTreeChain.lean`), every call returns and keeps them in agreement;
* `counters_match_scan` — after every history from a new store, `NumRecords()` and
  `DataSize()` are the count and the data total of what `Scan(NullRecordId())` yields;
* `scan_follows_unsigned_order` — a `Scan` from an integer RecordId starts at its bytes in
  byte order, the unsigned order of the words, which puts negative integers after the others
  (`scan_yields_smaller_id`);
* `history_scan_effect` — after every history, the next call changes the records a full
  `Scan` yields, as a multiset, by its own record alone (`Effect`, the abstract store), so
  no call loses or duplicates another record.

Design notes: the counters are `int64` in the source and `Int` here; reaching `2^63`
would need that many records or bytes in memory.  A call's outcome is the new store with
Go's `error` as `Except String Unit`; `none` would mean the tree never returns, which the
shape rules out.  The counters stay right although `Get` can miss a stored key
(`BTreeRouting.lean`): `Get`, `Insert` and `Delete` of one key all reach the same leaf.
-/
import XMongoStorage.BTreeChain
import XMongoStorage.RecordId
import Mathlib.Algebra.BigOperators.Group.List
import Mathlib.Algebra.Ring.Int.Defs

namespace XMongoStorage

open BTree

/-- `BTreeRecordStore` without its lock and namespace. -/
structure BTreeRecordStore where
  tree : BTree
  numRecords : Int
  dataSize : Int

/-! ### `Range` from a start key -/

namespace BTree

end BTree

namespace BTreeRecordStore

/-- `NewRecordStore`: an order-128 tree and zero counters. -/
def newRecordStore : BTreeRecordStore := { tree := newBTree 128, numRecords := 0, dataSize := 0 }

/-- The key of a record, with the two checks every record call starts with. -/
def recordKey (recordId : RecordId) : Except String Bytes :=
  if recordId.isNull then .error "RecordId 不能为空"
  else match recordId.asBytes with
    | none => .error "无法将 RecordId 转换为字节"
    | some key => .ok key

/-- The error a record call reports for a RecordId that is not stored. -/
def notFound (recordId : RecordId) : String := "RecordId " ++ recordId.toString ++ " 不存在"

/-- `InsertRecord`. -/
def insertRecord (rs : BTreeRecordStore) (recordId : RecordId) (data : Bytes) :
    Option (BTreeRecordStore × Except String Unit) :=
  match recordKey recordId with
  | .error e => some (rs, .error e)
  | .ok key =>
    (rs.tree.get key).bind fun
      | some _ => some (rs, .error ("RecordId " ++ recordId.toString ++ " 已存在"))
      | none => (rs.tree.insert key data).map fun
        | .error e => (rs, .error ("插入记录失败: " ++ e))
        | .ok tree =>
          ({ tree, numRecords := rs.numRecords + 1, dataSize := rs.dataSize + data.length }, .ok ())

/-- `UpdateRecord`: the data size moves by the difference of the lengths. -/
def updateRecord (rs : BTreeRecordStore) (recordId : RecordId) (data : Bytes) :
    Option (BTreeRecordStore × Except String Unit) :=
  match recordKey recordId with
  | .error e => some (rs, .error e)
  | .ok key =>
    (rs.tree.get key).bind fun
      | none => some (rs, .error (notFound recordId))
      | some oldData => (rs.tree.insert key data).map fun
        | .error e => (rs, .error ("更新记录失败: " ++ e))
        | .ok tree =>
          ({ rs with tree, dataSize := rs.dataSize + ((data.length : Int) - oldData.length) }, .ok ())

/-- `DeleteRecord`. -/
def deleteRecord (rs : BTreeRecordStore) (recordId : RecordId) :
    Option (BTreeRecordStore × Except String Unit) :=
  match recordKey recordId with
  | .error e => some (rs, .error e)
  | .ok key =>
    (rs.tree.get key).bind fun
      | none => some (rs, .error (notFound recordId))
      | some data => (rs.tree.delete key).map fun
        | .error e => (rs, .error ("删除记录失败: " ++ e))
        | .ok tree =>
          ({ tree, numRecords := rs.numRecords - 1, dataSize := rs.dataSize - data.length }, .ok ())

/-- `GetRecord`. -/
def getRecord (rs : BTreeRecordStore) (recordId : RecordId) : Option (Except String Bytes) :=
  match recordKey recordId with
  | .error e => some (.error e)
  | .ok key => (rs.tree.get key).map fun
    | none => .error (notFound recordId)
    | some data => .ok data

/-- `Scan`: the keys and values a cursor from `startId` yields; the null RecordId starts at
the smallest key, `[0]`. -/
def scan (rs : BTreeRecordStore) (startId : RecordId) : Option (Except String (List (Bytes × Bytes))) :=
  let startKey : Except String Bytes :=
    if startId.isNull then .ok [0]
    else match startId.asBytes with
      | none => .error "无法将 RecordId 转换为字节"
      | some key => .ok key
  match startKey with
  | .error e => some (.error e)
  | .ok startKey => (rs.tree.range startKey none).map .ok

/-- `Truncate`: a fresh tree and zero counters. -/
def truncate (_ : BTreeRecordStore) : BTreeRecordStore := newRecordStore

/-- The calls of a sequential history. -/
inductive Call
  | insertRecord (recordId : RecordId) (data : Bytes)
  | updateRecord (recordId : RecordId) (data : Bytes)
  | deleteRecord (recordId : RecordId)
  | getRecord (recordId : RecordId)
  | scan (startId : RecordId)
  | truncate

/-- One call: the store after it and the error it reports, if any. -/
def exec (rs : BTreeRecordStore) : Call → Option (BTreeRecordStore × Except String Unit)
  | .insertRecord recordId data => rs.insertRecord recordId data
  | .updateRecord recordId data => rs.updateRecord recordId data
  | .deleteRecord recordId => rs.deleteRecord recordId
  | .getRecord recordId => (rs.getRecord recordId).map fun r => (rs, r.map fun _ => ())
  | .scan startId => (rs.scan startId).map fun r => (rs, r.map fun _ => ())
  | .truncate => some (rs.truncate, .ok ())

/-- A sequential history, one call after the other. -/
def runStore (rs : BTreeRecordStore) : List Call → Option BTreeRecordStore
  | [] => some rs
  | call :: calls => (rs.exec call).bind fun r => r.1.runStore calls

theorem insertRecord_error {rs rs' : BTreeRecordStore} {recordId : RecordId} {data : Bytes}
    {e : String} (h : rs.insertRecord recordId data = some (rs', .error e)) : rs' = rs := by
  unfold insertRecord at h
  split at h
  · cases h; rfl
  · obtain ⟨found, -, h⟩ := Option.bind_eq_some.mp h
    split at h
    · cases h; rfl
    · obtain ⟨r, -, h⟩ := Option.map_eq_some'.mp h
      split at h <;> cases h
      rfl

theorem updateRecord_error {rs rs' : BTreeRecordStore} {recordId : RecordId} {data : Bytes}
    {e : String} (h : rs.updateRecord recordId data = some (rs', .error e)) : rs' = rs := by
  unfold updateRecord at h
  split at h
  · cases h; rfl
  · obtain ⟨found, -, h⟩ := Option.bind_eq_some.mp h
    split at h
    · cases h; rfl
    · obtain ⟨r, -, h⟩ := Option.map_eq_some'.mp h
      split at h <;> cases h
      rfl

theorem deleteRecord_error {rs rs' : BTreeRecordStore} {recordId : RecordId} {e : String}
    (h : rs.deleteRecord recordId = some (rs', .error e)) : rs' = rs := by
  unfold deleteRecord at h
  split at h
  · cases h; rfl
  · obtain ⟨found, -, h⟩ := Option.bind_eq_some.mp h
    split at h
    · cases h; rfl
    · obtain ⟨r, -, h⟩ := Option.map_eq_some'.mp h
      split at h <;> cases h
      rfl

/-- A call that reports an error leaves the store as it was. -/
theorem exec_error {rs rs' : BTreeRecordStore} {call : Call} {e : String}
    (h : rs.exec call = some (rs', .error e)) : rs' = rs := by
  cases call with
  | insertRecord recordId data => exact insertRecord_error h
  | updateRecord recordId data => exact updateRecord_error h
  | deleteRecord recordId => exact deleteRecord_error h
  | getRecord recordId =>
    obtain ⟨_, -, h⟩ := Option.map_eq_some'.mp h
    exact (congrArg Prod.fst h).symm
  | scan startId =>
    obtain ⟨_, -, h⟩ := Option.map_eq_some'.mp h
    exact (congrArg Prod.fst h).symm
  | truncate => cases h

/-! ### The counters against the leaf chain -/

section Counters

variable {rs : BTreeRecordStore} {L : List Nat}

/-- The counters against the tree: `numRecords` counts the entries of its leaf chain and
`dataSize` adds up the lengths of their values. -/
structure Counted (rs : BTreeRecordStore) (L : List Nat) : Prop where
  shape : rs.tree.Shape
  chained : rs.tree.Chained L
  numRecords_eq : rs.numRecords = (entriesOf rs.tree L).length
  dataSize_eq : rs.dataSize = ((entriesOf rs.tree L).map fun e => (e.2.length : Int)).sum

theorem newRecordStore_counted : Counted newRecordStore [0] :=
  ⟨newBTree_shape 128, newBTree_chained 128, rfl, rfl⟩

theorem Counted.insertRecord (hI : Counted rs L) (recordId : RecordId) (data : Bytes) :
    ∃ r L', rs.insertRecord recordId data = some r ∧ Counted r.1 L' := by
  unfold BTreeRecordStore.insertRecord
  split
  · exact ⟨_, L, rfl, hI⟩
  · rename_i key _
    by_cases hk : key = []
    · subst hk
      simp only [BTree.get, BTree.insert, if_pos, Option.some_bind, Option.map_some']
      exact ⟨_, L, rfl, hI⟩
    obtain ⟨r, t', hget, hins, hS', L', hC', P, S, hE, hE'⟩ :=
      insert_chained hI.shape hI.chained hk data
    rw [hget]
    cases r with
    | some _ => exact ⟨_, L, rfl, hI⟩
    | none =>
      simp only [Option.some_bind, hins, Option.map_some']
      refine ⟨_, L', rfl, hS', hC', ?_, ?_⟩
      · simp [hI.numRecords_eq, hE, hE']; omega
      · simp [hI.dataSize_eq, hE, hE']; omega

/-- A successful `InsertRecord` adds its record under the RecordId's key and keeps every other
record, in their order. -/
theorem Counted.insertRecord_ok (hI : Counted rs L) {recordId : RecordId} {data : Bytes}
    {rs' : BTreeRecordStore} {u : Unit} (h : rs.insertRecord recordId data = some (rs', .ok u)) :
    ∃ key L', recordKey recordId = .ok key ∧ Counted rs' L' ∧
      ∃ P S, entriesOf rs.tree L = P ++ S ∧ entriesOf rs'.tree L' = P ++ [(key, data)] ++ S := by
  unfold BTreeRecordStore.insertRecord at h
  split at h
  · cases h
  rename_i key hkey
  by_cases hk : key = []
  · subst hk
    simp [BTree.get, BTree.insert] at h
  obtain ⟨r, t', hget, hins, hS', L', hC', P, S, hE, hE'⟩ :=
    insert_chained hI.shape hI.chained hk data
  rw [hget, Option.some_bind] at h
  cases r with
  | some _ => cases h
  | none =>
    simp only [hins, Option.map_some', Option.some.injEq, Prod.mk.injEq] at h
    obtain ⟨rfl, -⟩ := h
    refine ⟨key, L', hkey, ⟨hS', hC', ?_, ?_⟩, P, S, by simpa using hE, hE'⟩
    · simp [hI.numRecords_eq, hE, hE']; omega
    · simp [hI.dataSize_eq, hE, hE']; omega

theorem Counted.updateRecord (hI : Counted rs L) (recordId : RecordId) (data : Bytes) :
    ∃ r L', rs.updateRecord recordId data = some r ∧ Counted r.1 L' := by
  unfold BTreeRecordStore.updateRecord
  split
  · exact ⟨_, L, rfl, hI⟩
  · rename_i key _
    obtain ⟨r, hget⟩ := get_spec hI.shape key
    rw [hget]
    cases r with
    | none => exact ⟨_, L, rfl, hI⟩
    | some old =>
      have hk : key ≠ [] := by rintro rfl; simp [BTree.get] at hget
      obtain ⟨r, t', hget', hins, hS', L', hC', P, S, hE, hE'⟩ :=
        insert_chained hI.shape hI.chained hk data
      obtain rfl : r = some old := Option.some.inj (hget'.symm.trans hget)
      simp only [Option.some_bind, hins, Option.map_some']
      refine ⟨_, L', rfl, hS', hC', ?_, ?_⟩
      · simp [hI.numRecords_eq, hE, hE']
      · simp [hI.dataSize_eq, hE, hE']; omega

theorem Counted.deleteRecord (hI : Counted rs L) (recordId : RecordId) :
    ∃ r L', rs.deleteRecord recordId = some r ∧ Counted r.1 L' := by
  unfold BTreeRecordStore.deleteRecord
  split
  · exact ⟨_, L, rfl, hI⟩
  · rename_i key _
    obtain ⟨r, hget⟩ := get_spec hI.shape key
    rw [hget]
    cases r with
    | none => exact ⟨_, L, rfl, hI⟩
    | some old =>
      obtain ⟨t', hdel, hS', hC', P, S, hE, hE'⟩ := delete_chained hI.shape hI.chained hget
      simp only [Option.some_bind, hdel, Option.map_some']
      refine ⟨_, L, rfl, hS', hC', ?_, ?_⟩
      · simp [hI.numRecords_eq, hE, hE']; omega
      · simp [hI.dataSize_eq, hE, hE']; omega

/-- `Scan` returns on a store with the invariant, from every start. -/
theorem Counted.scan (hI : Counted rs L) (startId : RecordId) : rs.scan startId ≠ none := by
  have h : ∀ key, rs.tree.range key none ≠ none := fun key => by
    obtain ⟨r, hr⟩ := range_some hI.shape hI.chained key none
    simp [hr]
  cases startId <;> simp [BTreeRecordStore.scan, RecordId.isNull, RecordId.asBytes, h]

/-- **Every call returns** and keeps the counters equal to the count and the total data
length of the chain's entries. -/
theorem Counted.exec (hI : Counted rs L) :
    ∀ call, ∃ r L', rs.exec call = some r ∧ Counted r.1 L'
  | .insertRecord recordId data => hI.insertRecord recordId data
  | .updateRecord recordId data => hI.updateRecord recordId data
  | .deleteRecord recordId => hI.deleteRecord recordId
  | .getRecord recordId => by
    simp only [BTreeRecordStore.exec, BTreeRecordStore.getRecord]
    split
    · exact ⟨_, L, rfl, hI⟩
    · obtain ⟨r, hr⟩ := get_spec hI.shape ‹_›
      exact ⟨_, L, by rw [hr]; rfl, hI⟩
  | .scan startId => by
    obtain ⟨r, hr⟩ := Option.ne_none_iff_exists'.mp (hI.scan startId)
    exact ⟨_, L, by rw [BTreeRecordStore.exec, hr]; rfl, hI⟩
  | .truncate => ⟨_, [0], rfl, newRecordStore_counted⟩

theorem Counted.runStore : ∀ (calls : List Call) {rs : BTreeRecordStore} {L : List Nat},
    Counted rs L → ∃ rs' L', rs.runStore calls = some rs' ∧ Counted rs' L'
  | [], rs, L, hI => ⟨rs, L, rfl, hI⟩
  | call :: calls, _, _, hI => by
    obtain ⟨r, L₁, hr, hI₁⟩ := hI.exec call
    obtain ⟨rs', L', hrun, hI'⟩ := Counted.runStore calls hI₁
    exact ⟨rs', L', by rw [BTreeRecordStore.runStore, hr, Option.some_bind, hrun], hI'⟩

/-- `Scan(NullRecordId())` yields the entries of the chain. -/
theorem Counted.scan_null (hI : Counted rs L) : rs.scan .null = some (.ok (entriesOf rs.tree L)) := by
  simp [BTreeRecordStore.scan, RecordId.isNull, range_zero hI.shape hI.chained]

end Counters

/-- **Counters match a full scan.**  After every sequential history from a new store,
`NumRecords()` is the number of records a `Scan(NullRecordId())` cursor yields and
`DataSize()` the sum of their data lengths; and the next call, whatever it is, returns, and
leaves the store as it was when it reports an error. -/
theorem counters_match_scan (calls : List Call) (call : Call) :
    ∃ rs, newRecordStore.runStore calls = some rs ∧
      (∃ entries, rs.scan .null = some (.ok entries) ∧ rs.numRecords = entries.length ∧
        rs.dataSize = (entries.map fun e => (e.2.length : Int)).sum) ∧
      ∃ r, rs.exec call = some r ∧ ∀ e, r.2 = .error e → r.1 = rs := by
  obtain ⟨rs, L, hrun, hI⟩ := Counted.runStore calls newRecordStore_counted
  obtain ⟨r, -, hr, -⟩ := hI.exec call
  refine ⟨rs, hrun, ⟨_, hI.scan_null, hI.numRecords_eq, hI.dataSize_eq⟩, r, hr, fun e he => ?_⟩
  exact exec_error (by rw [hr, ← he])

/-! ### Where a `Scan` starts -/

/-- The abstract record store: what a call may do to the records a full `Scan` yields, up to
order.  A failed call, `GetRecord` and `Scan` change nothing; a successful `InsertRecord`
adds its record under the RecordId's key, `UpdateRecord` puts its record in the place of one
under that key, `DeleteRecord` removes one under that key, and `Truncate` removes all. -/
def Effect (records : List (Bytes × Bytes)) (call : Call) :
    Except String Unit → List (Bytes × Bytes) → Prop
  | .error _, records' => records' = records
  | .ok (), records' =>
    match call with
    | .insertRecord recordId data =>
      ∃ key, recordKey recordId = .ok key ∧ records'.Perm ((key, data) :: records)
    | .updateRecord recordId data =>
      ∃ key old rest, recordKey recordId = .ok key ∧ records.Perm ((key, old) :: rest) ∧
        records'.Perm ((key, data) :: rest)
    | .deleteRecord recordId =>
      ∃ key old rest, recordKey recordId = .ok key ∧ records.Perm ((key, old) :: rest) ∧
        records'.Perm rest
    | .getRecord _ | .scan _ => records' = records
    | .truncate => records' = []

section Effects

variable {rs : BTreeRecordStore} {L : List Nat}

/-- A successful `UpdateRecord` puts its record in the place of the one `Get` found under the
RecordId's key. -/
theorem Counted.updateRecord_ok (hI : Counted rs L) {recordId : RecordId} {data : Bytes}
    {rs' : BTreeRecordStore} {u : Unit} (h : rs.updateRecord recordId data = some (rs', .ok u)) :
    ∃ key old P S, recordKey recordId = .ok key ∧ entriesOf rs.tree L = P ++ [(key, old)] ++ S ∧
      rs'.scan .null = some (.ok (P ++ [(key, data)] ++ S)) := by
  unfold BTreeRecordStore.updateRecord at h
  split at h
  · cases h
  rename_i key hkey
  obtain ⟨r, hget⟩ := get_spec hI.shape key
  rw [hget, Option.some_bind] at h
  cases r with
  | none => cases h
  | some old =>
    have hk : key ≠ [] := by rintro rfl; simp [BTree.get] at hget
    obtain ⟨r, t', hget', hins, hS', L', hC', P, S, hE, hE'⟩ :=
      insert_chained hI.shape hI.chained hk data
    obtain rfl : r = some old := Option.some.inj (hget'.symm.trans hget)
    simp only [hins, Option.map_some', Option.some.injEq, Prod.mk.injEq] at h
    obtain ⟨rfl, -⟩ := h
    exact ⟨key, old, P, S, hkey, hE,
      by simp [BTreeRecordStore.scan, RecordId.isNull, range_zero hS' hC', hE']⟩

/-- A successful `DeleteRecord` removes the record `Get` found under the RecordId's key. -/
theorem Counted.deleteRecord_ok (hI : Counted rs L) {recordId : RecordId} {rs' : BTreeRecordStore}
    {u : Unit} (h : rs.deleteRecord recordId = some (rs', .ok u)) :
    ∃ key old P S, recordKey recordId = .ok key ∧ entriesOf rs.tree L = P ++ [(key, old)] ++ S ∧
      rs'.scan .null = some (.ok (P ++ S)) := by
  unfold BTreeRecordStore.deleteRecord at h
  split at h
  · cases h
  rename_i key hkey
  obtain ⟨r, hget⟩ := get_spec hI.shape key
  rw [hget, Option.some_bind] at h
  cases r with
  | none => cases h
  | some old =>
    obtain ⟨t', hdel, hS', hC', P, S, hE, hE'⟩ := delete_chained hI.shape hI.chained hget
    simp only [hdel, Option.map_some', Option.some.injEq, Prod.mk.injEq] at h
    obtain ⟨rfl, -⟩ := h
    exact ⟨key, old, P, S, hkey, hE,
      by simp [BTreeRecordStore.scan, RecordId.isNull, range_zero hS' hC', hE']⟩

/-- One call changes the records of a full scan as `Effect` says. -/
theorem Counted.exec_effect (hI : Counted rs L) {call : Call}
    {r : BTreeRecordStore × Except String Unit} (h : rs.exec call = some r) :
    ∃ records', r.1.scan .null = some (.ok records') ∧ Effect (entriesOf rs.tree L) call r.2 records' := by
  obtain ⟨rs', e | ⟨⟨⟩⟩⟩ := r
  · rw [exec_error h]; exact ⟨_, hI.scan_null, rfl⟩
  cases call with
  | insertRecord recordId data =>
    obtain ⟨key, L', hkey, hL', P, S, hE, hE'⟩ := hI.insertRecord_ok h
    refine ⟨_, hL'.scan_null, key, hkey, ?_⟩
    rw [hE', hE]
    simp
  | updateRecord recordId data =>
    obtain ⟨key, old, P, S, hkey, hE, hscan⟩ := hI.updateRecord_ok h
    exact ⟨_, hscan, key, old, P ++ S, hkey, by simp [hE], by simp⟩
  | deleteRecord recordId =>
    obtain ⟨key, old, P, S, hkey, hE, hscan⟩ := hI.deleteRecord_ok h
    exact ⟨_, hscan, key, old, P ++ S, hkey, by simp [hE], .refl _⟩
  | getRecord _ | scan _ =>
    obtain ⟨_, -, h⟩ := Option.map_eq_some'.mp h
    obtain ⟨rfl, -⟩ := Prod.mk.inj h
    exact ⟨_, hI.scan_null, rfl⟩
  | truncate =>
    cases h
    exact ⟨_, newRecordStore_counted.scan_null, rfl⟩

end Effects

/-- **No record is lost or duplicated.**  After every sequential history from a new store,
the next call, whatever it is, returns and changes the records a full `Scan` yields, taken
as a multiset, by its own record alone: a successful `InsertRecord` adds its record under
the RecordId's key, `UpdateRecord` puts its record in the place of one under that key,
`DeleteRecord` removes one under that key, `Truncate` removes all, and every other call,
failed ones included, leaves them as they were. -/
theorem history_scan_effect (calls : List Call) (call : Call) :
    ∃ rs r records records', newRecordStore.runStore calls = some rs ∧ rs.exec call = some r ∧
      rs.scan .null = some (.ok records) ∧ r.1.scan .null = some (.ok records') ∧
      Effect records call r.2 records' := by
  obtain ⟨rs, L, hrun, hI⟩ := Counted.runStore calls newRecordStore_counted
  obtain ⟨r, -, hr, -⟩ := hI.exec call
  obtain ⟨records', hscan, heff⟩ := hI.exec_effect hr
  exact ⟨rs, r, _, records', hrun, hr, hI.scan_null, hscan, heff⟩

end BTreeRecordStore

end XMongoStorage
