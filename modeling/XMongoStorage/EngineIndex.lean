/-
Soundness of the `_id_` index over every run of the storage engine.

`Insert` writes a document's record before its index entries and stops at the first error,
so a record can be left with no entry (`duplicate_id_orphans_record`).  The other direction
holds: every entry an index holds names a record of its collection's store, and that record
holds the JSON of a document whose `_id` is the entry's key.

* `IndexSound.insert` — an index `Insert` keeps an index sound when the entry it writes
  points at a stored record;
* `insertIndexes_sound`, `insertDocuments_keeps_sound` — the index loop and the document
  loop of `Insert` keep a collection sound;
* `run_index_sound` — after every run of a new engine, `Scan(nil)` of each record store
  yields records that are JSON documents with a string `_id`, and `SeekRange(nil, nil)` of
  each index yields entries that point at those records.

Design notes: under `Insert` a record store only grows (`Counted.insertRecord_ok`), so an
entry that points at a record keeps pointing at it (`PointsAt.mono`); the catalog calls are
handled once for every property of collections by `AllCollections.run`.
-/
import XMongoStorage.EngineRuns

namespace XMongoStorage

open BTree BTreeRecordStore BTreeIndex WiredTigerEngine

/-- A record as `Insert` writes it: under the key of a `long` RecordId, the JSON of a
document whose `_id` is a string. -/
def StoredRecord (r : Bytes × Bytes) : Prop :=
  ∃ n doc s, r.1 = RecordId.putUint64 n ∧ documentToBSON doc = .ok r.2 ∧ idString doc = some s

/-- An index entry as `Insert` writes it for a record of `records`: the composite key of the
`_id` of the record's document and its `long` RecordId, with the RecordId's bytes as value. -/
def PointsAt (records : List (Bytes × Bytes)) (x : Bytes × Bytes) : Prop :=
  ∃ n doc s, x = (makeCompositeKey (stringBytes s) (.long n), RecordId.putUint64 n) ∧
    idString doc = some s ∧ ∃ data, documentToBSON doc = .ok data ∧ (RecordId.putUint64 n, data) ∈ records

/-- A valid index tree whose every entry points at a record of `records`. -/
def IndexSound (records : List (Bytes × Bytes)) (idx : BTreeIndex) : Prop :=
  idx.tree.Shape ∧ ∃ L, idx.tree.Chained L ∧ ∀ x ∈ entriesOf idx.tree L, PointsAt records x

/-- A collection as `Insert` keeps it: a counted record store of records `Insert` wrote, and
at least one index, each sound for those records.  The index list is never empty, so a
record is stored only after its document's `_id` was read as a string. -/
structure CollectionSound (coll : Collection) (L : List Nat) : Prop where
  indexes_ne_nil : coll.indexes ≠ []
  counted : coll.recordStore.Counted L
  records : ∀ r ∈ entriesOf coll.recordStore.tree L, StoredRecord r
  indexes : ∀ p ∈ coll.indexes, IndexSound (entriesOf coll.recordStore.tree L) p.2

section Sound

variable {records records' : List (Bytes × Bytes)}

theorem PointsAt.mono (h : ∀ r ∈ records, r ∈ records') {x : Bytes × Bytes}
    (hx : PointsAt records x) : PointsAt records' x := by
  obtain ⟨n, doc, s, hx, hs, data, hdata, hmem⟩ := hx
  exact ⟨n, doc, s, hx, hs, data, hdata, h _ hmem⟩

theorem IndexSound.mono (h : ∀ r ∈ records, r ∈ records') {idx : BTreeIndex}
    (hI : IndexSound records idx) : IndexSound records' idx := by
  obtain ⟨hS, L, hC, hE⟩ := hI
  exact ⟨hS, L, hC, fun x hx => (hE x hx).mono h⟩

/-- Putting one element in the place of a part of a list keeps a property of every element
that the new element has. -/
theorem forall_mem_replace {α : Type} {Q : α → Prop} {P r S : List α} {x : α}
    (h : ∀ y ∈ P ++ r ++ S, Q y) (hx : Q x) : ∀ y ∈ P ++ [x] ++ S, Q y := by
  simp only [List.mem_append, List.mem_singleton] at h ⊢
  rintro y ((hy | rfl) | hy)
  exacts [h y (.inl (.inl hy)), hx, h y (.inr hy)]

/-- An index `Insert` keeps an index sound when the entry it writes points at a record:
a failed one changes nothing, and a successful one puts its entry in the place of others. -/
theorem IndexSound.insert {idx : BTreeIndex} (hI : IndexSound records idx) {key : Bytes}
    {recordId : RecordId} (hx : PointsAt records (makeCompositeKey key recordId, recordId.asBytes.getD []))
    {r : BTreeIndex × Except String Unit} (h : idx.insert key recordId = some r) :
    IndexSound records r.1 := by
  obtain ⟨idx', e | u⟩ := r
  · rwa [insert_error h]
  obtain ⟨hS, L, hC, hE⟩ := hI
  obtain ⟨L', hS', hC', P, r, S, hold, hnew⟩ := insert_ok hS hC h
  exact ⟨hS', L', hC', hnew ▸ forall_mem_replace (hold ▸ hE) hx⟩

theorem indexSound_new (records : List (Bytes × Bytes)) :
    IndexSound records (newSortedDataInterface true) :=
  ⟨newBTree_shape 128, [0], newBTree_chained 128, nofun⟩

theorem collectionSound_new : CollectionSound emptyCollection [0] where
  indexes_ne_nil := List.cons_ne_nil _ _
  counted := newRecordStore_counted
  records := nofun
  indexes p hp := by
    obtain rfl := List.mem_singleton.mp hp
    exact indexSound_new _

end Sound

namespace WiredTigerEngine

/-! ### The loops of `Insert` -/

/-- The index loop reads the document's `_id` as a string before it writes an index, and
keeps the index list non-empty. -/
theorem insertIndexes_idString {doc : Document} {recordId : RecordId}
    {indexes : List (String × BTreeIndex)} {r : List (String × BTreeIndex) × Except String Unit}
    (hne : indexes ≠ []) (h : insertIndexes doc recordId indexes = some r) :
    ∃ s, idString doc = some s ∧ r.1 ≠ [] := by
  obtain _ | ⟨⟨name, idx⟩, rest⟩ := indexes
  · exact absurd rfl hne
  obtain ⟨s, hs, h⟩ := Option.bind_eq_some.mp h
  obtain ⟨⟨idx', e | u⟩, -, h⟩ := Option.bind_eq_some.mp h
  · cases h
    exact ⟨s, hs, List.cons_ne_nil _ _⟩
  · obtain ⟨r', -, rfl⟩ := Option.map_eq_some'.mp h
    exact ⟨s, hs, List.cons_ne_nil _ _⟩

/-- The index loop keeps every index sound once the document's record is stored. -/
theorem insertIndexes_sound {records : List (Bytes × Bytes)} {doc : Document} {n : BitVec 64}
    {data : Bytes} (hdata : documentToBSON doc = .ok data)
    (hmem : (RecordId.putUint64 n, data) ∈ records) :
    ∀ {indexes : List (String × BTreeIndex)} {r : List (String × BTreeIndex) × Except String Unit},
      (∀ p ∈ indexes, IndexSound records p.2) → insertIndexes doc (.long n) indexes = some r →
        ∀ p ∈ r.1, IndexSound records p.2
  | [], _, _, h => by cases h; simp
  | (name, idx) :: rest, r, hI, h => by
    obtain ⟨s, hs, h⟩ := Option.bind_eq_some.mp h
    obtain ⟨⟨idx', res⟩, hins, h⟩ := Option.bind_eq_some.mp h
    have hidx' : IndexSound records idx' :=
      (hI _ (List.mem_cons_self _ _)).insert ⟨n, doc, s, rfl, hs, data, hdata, hmem⟩ hins
    have hrest : ∀ p ∈ rest, IndexSound records p.2 := fun p hp => hI p (List.mem_cons_of_mem _ hp)
    rcases res with e | ⟨⟨⟩⟩
    · cases h
      exact List.forall_mem_cons.mpr ⟨hidx', hrest⟩
    · obtain ⟨r', hr', rfl⟩ := Option.map_eq_some'.mp h
      exact List.forall_mem_cons.mpr ⟨hidx', insertIndexes_sound hdata hmem hrest hr'⟩

/-- The document loop keeps a collection sound whenever it returns: each record it stores
holds a document whose `_id` the index loop then reads as a string, and each entry it writes
points at that record. -/
theorem insertDocuments_keeps_sound :
    ∀ {docs : List Document} {coll : Collection} {next : BitVec 64} {L : List Nat}
      {r : Collection × BitVec 64 × Except String Unit},
      CollectionSound coll L → insertDocuments coll next docs = some r → ∃ L', CollectionSound r.1 L'
  | [], _, _, _, _, hK, h => by cases h; exact ⟨_, hK⟩
  | doc :: docs, coll, next, L, r, hK, h => by
    obtain ⟨hr, -⟩ | ⟨doc', data, rs, indexes, -, hdata, hins, hidx⟩ := insertDocuments_cons h
    · exact ⟨L, hr ▸ hK⟩
    obtain ⟨key, L', hkey, hL', P, S, hE, hE'⟩ := hK.counted.insertRecord_ok hins
    cases hkey
    obtain ⟨res, hres⟩ : ∃ res, insertIndexes doc' _ coll.indexes = some (indexes, res) :=
      hidx.elim (fun ⟨_, h, _⟩ => ⟨_, h⟩) (fun ⟨h, _⟩ => ⟨_, h⟩)
    obtain ⟨s, hs, hne⟩ := insertIndexes_idString hK.indexes_ne_nil hres
    have hgrow : ∀ y ∈ entriesOf coll.recordStore.tree L, y ∈ entriesOf rs.tree L' := by
      rw [hE, hE']
      intro y hy
      simp only [List.mem_append] at hy ⊢
      tauto
    have hK' : CollectionSound { recordStore := rs, indexes } L' :=
      { indexes_ne_nil := hne
        counted := hL'
        records := hE' ▸ forall_mem_replace (r := []) (by simpa [hE] using hK.records)
          ⟨_, doc', s, rfl, hdata, hs⟩
        indexes := insertIndexes_sound hdata (by simp [hE'])
          (fun p hp => (hK.indexes p hp).mono hgrow) hres }
    rcases hidx with ⟨e, -, rfl⟩ | ⟨-, h⟩
    · exact ⟨_, hK'⟩
    · exact insertDocuments_keeps_sound hK' h

/-! ### Runs -/

/-- **The `_id_` index is sound.**  After every run of a new engine, `Scan(nil)` of a
collection's record store yields records that each hold, under the key of a `long`
RecordId, the JSON of a document with a string `_id`; and `SeekRange(nil, nil)` of each of
its indexes yields entries that each name one of those records and the `_id` of its
document. -/
theorem run_index_sound (calls : List Call) (e : WiredTigerEngine)
    (hrun : newWiredTigerEngine.run calls = some e) (database collection : String)
    (coll : Collection) (hc : e.collectionOf database collection = some coll) :
    ∃ records, coll.recordStore.scan .null = some (.ok records) ∧ (∀ r ∈ records, StoredRecord r) ∧
      ∀ p ∈ coll.indexes, ∃ entries, p.2.seekRange none none = some entries ∧
        ∀ x ∈ entries, PointsAt records x := by
  obtain ⟨L, hK⟩ := AllCollections.run (P := fun coll => ∃ L, CollectionSound coll L) ⟨_, collectionSound_new⟩
    (fun _ _ _ _ ⟨_, hK⟩ h => insertDocuments_keeps_sound hK h) calls allCollections_new hrun
    database collection coll hc
  refine ⟨_, hK.counted.scan_null, hK.records, fun p hp => ?_⟩
  obtain ⟨hS, L', hC, hE⟩ := hK.indexes p hp
  exact ⟨_, seekRange_none hS hC, hE⟩

theorem duplicateIdRun_index_sound :
    ∃ e coll, newWiredTigerEngine.run duplicateIdRun = some e ∧ e.collectionOf "d" "c" = some coll ∧
      ∃ records, coll.recordStore.scan .null = some (.ok records) ∧ (∀ r ∈ records, StoredRecord r) ∧
        ∀ p ∈ coll.indexes, ∃ entries, p.2.seekRange none none = some entries ∧
          ∀ x ∈ entries, PointsAt records x :=
  ⟨_, _, rfl, rfl, run_index_sound duplicateIdRun _ rfl "d" "c" _ rfl⟩

end WiredTigerEngine

end XMongoStorage
