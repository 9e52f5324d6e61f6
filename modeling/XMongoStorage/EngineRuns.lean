/-
Runs of the storage engine: what every collection keeps, and the documents `Insert` takes.

A collection is created with an empty record store and an empty `_id_` index, and only
`Insert` changes it afterwards.  A property of collections that the empty collection has
and the document loop of `Insert` keeps therefore holds of every collection after every
run (`AllCollections.run`).  Applied to `CollectionOK` (each record store counted, each
index tree valid):

* `insertDocuments_keeps_ok` — the document loop keeps a collection OK whenever it returns;
* `insertDocuments_some` — it returns on documents that are maps whose `_id`, if there is
  one, is a string;
* `run_returns_of_idShaped` — a run of a new engine whose inserted documents are all of
  that shape returns.  With `insert_panics_on_id_shape` these are exactly the documents
  `Insert` writes without a panic.

Design notes: `idShaped` is a property of the input, not a function of the source; it
reads the `_id` field with `List.lookup`, as `getField` does.
-/
import XMongoStorage.Engine

namespace XMongoStorage

open BTree BTreeRecordStore BTreeIndex WiredTigerKVEngine

/-- A document `Insert` writes without a panic: a map whose `_id`, if it has one, is a
string. -/
def idShaped : Document → Bool
  | none => false
  | some fields =>
    match fields.lookup "_id" with
    | none | some (.string _) => true
    | some _ => false

/-- On such a document `ensureId` returns a document with a string `_id`. -/
theorem ensureId_of_idShaped {doc : Document} (h : idShaped doc = true) (recordId : RecordId) :
    ∃ doc' s, ensureId doc recordId = some doc' ∧ idString doc' = some s := by
  rcases doc with _ | fields
  · cases h
  rcases hid : fields.lookup "_id" with _ | v
  · refine ⟨some (fields ++ [("_id", .string recordId.toString)]), recordId.toString, ?_, ?_⟩
    · simp only [ensureId, getField, Option.some_bind, hid, Option.isSome_none,
        Bool.false_eq_true, if_false, Option.map_some']
    · simp [idString, getField, List.lookup_append, hid]
  rcases v with s | n | b | _ | err
  · exact ⟨some fields, s, by simp [ensureId, getField, hid], by simp [idString, getField, hid]⟩
  all_goals simp [idShaped, hid] at h

/-- The collection a successful `CreateCollection` installs. -/
def emptyCollection : Collection :=
  { recordStore := newRecordStore, indexes := [("_id_", newSortedDataInterface true)] }

/-- What `Insert` keeps of a collection: a counted record store and valid index trees. -/
structure CollectionOK (coll : Collection) : Prop where
  recordStore : ∃ L, coll.recordStore.Counted L
  indexes : ∀ p ∈ coll.indexes, p.2.tree.Valid

theorem collectionOK_new : CollectionOK emptyCollection :=
  ⟨⟨_, newRecordStore_counted⟩, fun p hp => by
    obtain rfl := List.mem_singleton.mp hp
    exact newBTree_valid 128⟩

namespace WiredTigerEngine

/-! ### The document loop -/

/-- The index loop keeps every index tree valid whenever it returns. -/
theorem insertIndexes_keeps_valid {doc : Document} {recordId : RecordId} :
    ∀ {indexes : List (String × BTreeIndex)} {r : List (String × BTreeIndex) × Except String Unit},
      (∀ p ∈ indexes, p.2.tree.Valid) → insertIndexes doc recordId indexes = some r →
        ∀ p ∈ r.1, p.2.tree.Valid
  | [], _, _, h => by cases h; simp
  | (name, idx) :: rest, r, hV, h => by
    obtain ⟨s, -, h⟩ := Option.bind_eq_some.mp h
    obtain ⟨⟨idx', res⟩, hins, h⟩ := Option.bind_eq_some.mp h
    have hv : idx'.tree.Valid := by
      obtain ⟨r', hr', hv⟩ := insert_keeps_valid (hV _ (List.mem_cons_self _ _)) (stringBytes s) recordId
      rw [hins] at hr'
      cases hr'
      exact hv
    have hrest : ∀ p ∈ rest, p.2.tree.Valid := fun p hp => hV p (List.mem_cons_of_mem _ hp)
    rcases res with e | ⟨⟨⟩⟩
    · cases h
      exact List.forall_mem_cons.mpr ⟨hv, hrest⟩
    · obtain ⟨r', hr', rfl⟩ := Option.map_eq_some'.mp h
      exact List.forall_mem_cons.mpr ⟨hv, insertIndexes_keeps_valid hrest hr'⟩

/-- The index loop returns on a document with a string `_id`. -/
theorem insertIndexes_some {doc : Document} {s : String} (hs : idString doc = some s)
    (recordId : RecordId) :
    ∀ indexes : List (String × BTreeIndex), (∀ p ∈ indexes, p.2.tree.Valid) →
      insertIndexes doc recordId indexes ≠ none
  | [], _ => by simp [insertIndexes]
  | (name, idx) :: rest, hV => by
    obtain ⟨⟨idx', res⟩, hins, -⟩ :=
      insert_keeps_valid (hV _ (List.mem_cons_self _ _)) (stringBytes s) recordId
    simp only [insertIndexes, hs, Option.some_bind, hins]
    rcases res with e | ⟨⟨⟩⟩
    · simp
    · have := insertIndexes_some hs recordId rest fun p hp => hV p (List.mem_cons_of_mem _ hp)
      simpa [Option.map_eq_none'] using this

/-- What one document of the document loop does: it stops with an error and the collection
as it was, or it stores the document's record; then the index loop either stops with an
error or hands the collection on to the next document. -/
theorem insertDocuments_cons {coll : Collection} {next : BitVec 64} {doc : Document}
    {docs : List Document} {r : Collection × BitVec 64 × Except String Unit}
    (h : insertDocuments coll next (doc :: docs) = some r) :
    (r.1 = coll ∧ r.2.2.isOk = false) ∨
      ∃ doc' data rs indexes, ensureId doc (.long (next + 1)) = some doc' ∧
        documentToBSON doc' = .ok data ∧
        coll.recordStore.insertRecord (.long (next + 1)) data = some (rs, .ok ()) ∧
        ((∃ e, insertIndexes doc' (.long (next + 1)) coll.indexes = some (indexes, .error e) ∧
            r = ({ recordStore := rs, indexes }, next + 1, .error e)) ∨
          (insertIndexes doc' (.long (next + 1)) coll.indexes = some (indexes, .ok ()) ∧
            insertDocuments { recordStore := rs, indexes } (next + 1) docs = some r)) := by
  rw [insertDocuments] at h
  obtain ⟨doc', hdoc', h⟩ := Option.bind_eq_some.mp h
  split at h
  · cases h; exact .inl ⟨rfl, rfl⟩
  rename_i data hdata
  obtain ⟨⟨rs, e | ⟨⟨⟩⟩⟩, hins, h⟩ := Option.bind_eq_some.mp h
  · cases h; exact .inl ⟨rfl, rfl⟩
  obtain ⟨⟨indexes, e | ⟨⟨⟩⟩⟩, hidx, h⟩ := Option.bind_eq_some.mp h
  · cases h; exact .inr ⟨doc', data, rs, indexes, hdoc', hdata, hins, .inl ⟨e, hidx, rfl⟩⟩
  · exact .inr ⟨doc', data, rs, indexes, hdoc', hdata, hins, .inr ⟨hidx, h⟩⟩

/-- The document loop keeps a collection OK whenever it returns. -/
theorem insertDocuments_keeps_ok :
    ∀ {docs : List Document} {coll : Collection} {next : BitVec 64}
      {r : Collection × BitVec 64 × Except String Unit},
      CollectionOK coll → insertDocuments coll next docs = some r → CollectionOK r.1
  | [], _, _, _, hK, h => by cases h; exact hK
  | doc :: docs, coll, next, r, hK, h => by
    obtain ⟨hr, -⟩ | ⟨doc', data, rs, indexes, -, -, hins, hidx⟩ := insertDocuments_cons h
    · exact hr ▸ hK
    obtain ⟨L, hL⟩ := hK.recordStore
    obtain ⟨-, L', -, hL', -⟩ := hL.insertRecord_ok hins
    rcases hidx with ⟨e, hidx, rfl⟩ | ⟨hidx, h⟩
    · exact ⟨⟨L', hL'⟩, insertIndexes_keeps_valid hK.indexes hidx⟩
    · exact insertDocuments_keeps_ok ⟨⟨L', hL'⟩, insertIndexes_keeps_valid hK.indexes hidx⟩ h

/-- The document loop returns on maps whose `_id` is a string or missing. -/
theorem insertDocuments_some : ∀ (docs : List Document) (coll : Collection) (next : BitVec 64),
    CollectionOK coll → (∀ doc ∈ docs, idShaped doc = true) → insertDocuments coll next docs ≠ none
  | [], _, _, _, _ => by simp [insertDocuments]
  | doc :: docs, coll, next, hK, hdocs => by
    obtain ⟨doc', s, hdoc', hs⟩ :=
      ensureId_of_idShaped (hdocs doc (List.mem_cons_self _ _)) (.long (next + 1))
    simp only [insertDocuments, hdoc', Option.some_bind]
    split
    · simp
    obtain ⟨L, hL⟩ := hK.recordStore
    obtain ⟨⟨rs, res⟩, L', hins, hL'⟩ := hL.insertRecord (.long (next + 1)) _
    rw [hins, Option.some_bind]
    rcases res with e | ⟨⟨⟩⟩
    · simp
    obtain ⟨⟨indexes, res⟩, hidx⟩ := Option.ne_none_iff_exists'.mp
      (insertIndexes_some hs (.long (next + 1)) coll.indexes hK.indexes)
    simp only [hidx, Option.some_bind]
    rcases res with e | ⟨⟨⟩⟩
    · simp
    · exact insertDocuments_some docs _ _ ⟨⟨L', hL'⟩, insertIndexes_keeps_valid hK.indexes hidx⟩
        fun d hd => hdocs d (List.mem_cons_of_mem _ hd)

/-! ### The catalog -/

/-- Every collection of the catalog satisfies `P`. -/
def AllCollections (P : Collection → Prop) (e : WiredTigerEngine) : Prop :=
  ∀ database collection coll, e.collectionOf database collection = some coll → P coll

/-- Every collection of the catalog is OK. -/
def CatalogOK (e : WiredTigerEngine) : Prop := AllCollections CollectionOK e

section Catalog

variable {P : Collection → Prop} {e e' : WiredTigerEngine}

theorem allCollections_new : AllCollections P newWiredTigerEngine := fun _ _ _ h => by
  simp [collectionOf, newWiredTigerEngine] at h

theorem AllCollections.of_databases (hK : AllCollections P e) (heq : e'.databases = e.databases) :
    AllCollections P e' := fun d c coll h => hK d c coll (by rwa [collectionOf, heq] at h)

/-- Writing one database slot keeps `P` of every collection when every collection of the
new entry has it. -/
theorem AllCollections.update (hK : AllCollections P e) {name : String} {v : Option Database}
    (hv : ∀ db, v = some db → ∀ c coll, db.collections c = some coll → P coll)
    (he' : e'.databases = Function.update e.databases name v) : AllCollections P e' := by
  intro d c coll h
  rw [collectionOf, he'] at h
  by_cases hd : d = name
  · subst hd
    rw [Function.update_same] at h
    obtain ⟨db, hdb, hc⟩ := Option.bind_eq_some.mp h
    exact hv db hdb c coll hc
  · rw [Function.update_noteq hd] at h
    exact hK d c coll h

/-- Writing one collection slot of an existing database keeps `P` of every collection when
the new entry has it. -/
theorem AllCollections.updateCollection (hK : AllCollections P e) {database : String}
    {db : Database} (hdb : e.databases database = some db) {collection : String}
    {v : Option Collection} (hv : ∀ coll, v = some coll → P coll)
    (he' : e'.databases =
      Function.update e.databases database (some ⟨Function.update db.collections collection v⟩)) :
    AllCollections P e' := by
  refine hK.update (fun db' hdb' c coll hc => ?_) he'
  cases hdb'
  by_cases h : c = collection
  · subst h
    exact hv coll (by simpa using hc)
  · simp only [Function.update_noteq h] at hc
    exact hK database c coll (by simp [collectionOf, hdb, hc])

theorem AllCollections.createDatabase (hK : AllCollections P e) (name : String) :
    AllCollections P (e.createDatabase name).1 := by
  unfold WiredTigerEngine.createDatabase
  split
  · exact hK
  · exact hK.update (fun db h c coll hc => by cases h; cases hc) rfl

theorem AllCollections.dropDatabase (hK : AllCollections P e) (name : String) :
    AllCollections P (e.dropDatabase name).1 := by
  unfold WiredTigerEngine.dropDatabase
  split
  · exact hK
  · exact hK.update (fun db h => by cases h) rfl

theorem AllCollections.dropCollection (hK : AllCollections P e) (database collection : String) :
    AllCollections P (e.dropCollection database collection).1 := by
  unfold WiredTigerEngine.dropCollection
  split
  · exact hK
  rename_i db hdb
  split
  · exact hK
  · exact hK.updateCollection hdb (fun _ h => by cases h) rfl

/-- `CreateCollection` adds an empty collection or changes no collection. -/
theorem AllCollections.createCollection (hK : AllCollections P e) (hnew : P emptyCollection)
    (database collection : String) : AllCollections P (e.createCollection database collection).1 := by
  unfold WiredTigerEngine.createCollection
  split
  · exact hK
  rename_i db hdb
  split
  · exact hK
  dsimp only
  rw [createRecordStore_eq]
  split_ifs
  · exact hK.of_databases rfl
  dsimp only
  rw [createSortedDataInterface_eq]
  split_ifs
  · exact hK.of_databases rfl
  · exact hK.updateCollection hdb (fun _ h => by cases h; exact hnew) rfl

/-- `Insert` changes one collection, by its document loop. -/
theorem AllCollections.insert (hK : AllCollections P e)
    (hP : ∀ coll next docs r, P coll → insertDocuments coll next docs = some r → P r.1)
    {database collection : String} {documents : List Document} {r : WiredTigerEngine × Except String Unit}
    (h : e.insert database collection documents = some r) : AllCollections P r.1 := by
  unfold WiredTigerEngine.insert at h
  split at h
  · cases h; exact hK
  rename_i db hdb
  split at h
  · cases h; exact hK
  rename_i coll hc
  obtain ⟨⟨coll', next, res⟩, hr, rfl⟩ := Option.map_eq_some'.mp h
  exact hK.updateCollection hdb (fun _ h => by
    cases h; exact hP _ _ _ _ (hK database collection coll (by simp [collectionOf, hdb, hc])) hr) rfl

/-- A property of collections that the empty collection has and the document loop keeps holds
of every collection after every call that returns. -/
theorem AllCollections.exec (hnew : P emptyCollection)
    (hP : ∀ coll next docs r, P coll → insertDocuments coll next docs = some r → P r.1)
    (hK : AllCollections P e) {call : Call} {r : WiredTigerEngine × Except String Unit}
    (h : e.exec call = some r) : AllCollections P r.1 := by
  cases call <;> simp only [WiredTigerEngine.exec, Option.some.injEq] at h <;> (try subst h)
  case createDatabase name => exact hK.createDatabase name
  case dropDatabase name => exact hK.dropDatabase name
  case createCollection database collection => exact hK.createCollection hnew database collection
  case dropCollection database collection => exact hK.dropCollection database collection
  case insert => exact hK.insert hP h

theorem AllCollections.run (hnew : P emptyCollection)
    (hP : ∀ coll next docs r, P coll → insertDocuments coll next docs = some r → P r.1) :
    ∀ (calls : List Call) {e e' : WiredTigerEngine}, AllCollections P e → e.run calls = some e' →
      AllCollections P e'
  | [], _, _, hK, h => by cases h; exact hK
  | call :: calls, _, _, hK, h => by
    obtain ⟨r, hr, hrun⟩ := Option.bind_eq_some.mp h
    exact AllCollections.run hnew hP calls (hK.exec hnew hP hr) hrun

end Catalog

/-! ### Runs -/

/-- The documents a call inserts, if any, are all `idShaped`. -/
def Call.insertsIdShaped : Call → Bool
  | .insert _ _ documents => documents.all idShaped
  | _ => true

/-- A call that inserts only `idShaped` documents returns on an OK catalog. -/
theorem CatalogOK.exec_some {e : WiredTigerEngine} (hK : e.CatalogOK) {call : Call}
    (hcall : call.insertsIdShaped = true) : e.exec call ≠ none := by
  cases call with
  | insert database collection documents =>
    simp only [exec, WiredTigerEngine.insert]
    split
    · simp
    rename_i db hdb
    split
    · simp
    rename_i coll hc
    have := insertDocuments_some documents coll e.nextRecordId
      (hK database collection coll (by simp [collectionOf, hdb, hc])) (List.all_eq_true.mp hcall)
    simpa [Option.map_eq_none'] using this
  | _ => simp [exec]

theorem CatalogOK.run : ∀ (calls : List Call) {e : WiredTigerEngine}, e.CatalogOK →
    (∀ call ∈ calls, call.insertsIdShaped = true) → ∃ e', e.run calls = some e' ∧ e'.CatalogOK
  | [], _, hK, _ => ⟨_, rfl, hK⟩
  | call :: calls, e, hK, hcalls => by
    obtain ⟨r, hr⟩ := Option.ne_none_iff_exists'.mp (hK.exec_some (hcalls call (List.mem_cons_self _ _)))
    have hK' : r.1.CatalogOK := AllCollections.exec collectionOK_new
      (fun _ _ _ _ hc h => insertDocuments_keeps_ok hc h) hK hr
    simp only [WiredTigerEngine.run, hr, Option.some_bind]
    exact CatalogOK.run calls hK' fun c hc => hcalls c (List.mem_cons_of_mem _ hc)

/-- **The documents `Insert` takes.**  A run of a new engine returns whenever every document
it inserts is a map whose `_id`, if it has one, is a string, whatever else its calls are;
and after it every record store's counters count its records and every tree is valid. -/
theorem run_returns_of_idShaped (calls : List Call)
    (hcalls : ∀ call ∈ calls, call.insertsIdShaped = true) :
    ∃ e, newWiredTigerEngine.run calls = some e ∧ e.CatalogOK :=
  CatalogOK.run calls allCollections_new hcalls

theorem duplicateIdRun_returns :
    (∀ call ∈ duplicateIdRun, call.insertsIdShaped = true) ∧
      ∃ e, newWiredTigerEngine.run duplicateIdRun = some e ∧ e.CatalogOK :=
  ⟨by decide, run_returns_of_idShaped duplicateIdRun (by decide)⟩

end WiredTigerEngine

end XMongoStorage
