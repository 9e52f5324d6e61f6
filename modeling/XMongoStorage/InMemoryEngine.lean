/-
The in-memory copy of the storage engine (`WiredTigerEngine` of the first storage file in
`btree.go`), and the KV-backed engine's refinement of it.

`btree.go` holds two implementations of the one `Engine` interface.  The first keeps each
collection's documents in a slice: `Insert` appends them and `Find` returns them all.  The
second (`Engine.lean`) stores each document's JSON in a B+ tree record store under a new
RecordId and indexes its `_id`.  Both make the same catalog checks with the same messages;
only the second can fail `CreateCollection` on a namespace the KV engine holds, such as
that of a dropped collection (`dropped_collection_not_recreated`), and `Insert` on a
duplicate `_id` (`duplicate_id_orphans_record`).

* `Refines.exec` — on one call, if the KV-backed engine succeeds so does the in-memory one,
  and when the two answer alike the KV-backed engine goes on implementing the in-memory one;
* `trace_refines_inMemory` — over every run of two new engines in which every call of the
  KV-backed engine succeeds, every call answers alike in both, each ends with a database or
  a collection exactly when the other does, and each collection's `Scan(nil)` yields one
  record per document `Find` returns in the in-memory engine, holding its JSON with its
  `_id` filled in.

Design notes: the in-memory engine's calls take the engine's `Call`s.  The records are
compared with the documents up to order, since the B+ tree's leaf chain need not follow
the RecordIds (`parent_pointer_stale`).  `Start`, `Stop` and `Close` only set the running
flag, which no other call reads, and `ListDatabases` and `ListCollections` list a Go map in
any order: they are left out, as are `Update`, `Delete` and the index calls, which return
nil and do nothing in both copies.
-/
import XMongoStorage.EngineRuns

namespace XMongoStorage

namespace InMemory

/-- `Collection` of the in-memory copy: its documents.  Its name and its index map, which
no call reads, are left out. -/
structure Collection where
  documents : List Document

/-- `Database`: its collections by name. -/
structure Database where
  collections : String → Option Collection

/-- `WiredTigerEngine` of the in-memory copy, without its configuration and running flag. -/
structure WiredTigerEngine where
  databases : String → Option Database

namespace WiredTigerEngine

/-- `NewWiredTigerEngine`. -/
def newWiredTigerEngine : WiredTigerEngine := { databases := fun _ => none }

/-- `CreateDatabase`. -/
def createDatabase (e : WiredTigerEngine) (name : String) : WiredTigerEngine × Except String Unit :=
  if (e.databases name).isSome then (e, .error ("数据库 " ++ name ++ " 已存在"))
  else ({ databases := Function.update e.databases name (some ⟨fun _ => none⟩) }, .ok ())

/-- `DropDatabase`. -/
def dropDatabase (e : WiredTigerEngine) (name : String) : WiredTigerEngine × Except String Unit :=
  if (e.databases name).isNone then (e, .error ("数据库 " ++ name ++ " 不存在"))
  else ({ databases := Function.update e.databases name none }, .ok ())

/-- `CreateCollection`: an empty slice of documents. -/
def createCollection (e : WiredTigerEngine) (database collection : String) :
    WiredTigerEngine × Except String Unit :=
  match e.databases database with
  | none => (e, .error ("数据库 " ++ database ++ " 不存在"))
  | some db =>
    if (db.collections collection).isSome then (e, .error ("集合 " ++ collection ++ " 已存在"))
    else
      ({ databases := Function.update e.databases database
          (some ⟨Function.update db.collections collection (some ⟨[]⟩)⟩) }, .ok ())

/-- `DropCollection`. -/
def dropCollection (e : WiredTigerEngine) (database collection : String) :
    WiredTigerEngine × Except String Unit :=
  match e.databases database with
  | none => (e, .error ("数据库 " ++ database ++ " 不存在"))
  | some db =>
    if (db.collections collection).isNone then (e, .error ("集合 " ++ collection ++ " 不存在"))
    else
      ({ databases := Function.update e.databases database
          (some ⟨Function.update db.collections collection none⟩) }, .ok ())

/-- `Insert`: `coll.Documents = append(coll.Documents, documents...)`. -/
def insert (e : WiredTigerEngine) (database collection : String) (documents : List Document) :
    WiredTigerEngine × Except String Unit :=
  match e.databases database with
  | none => (e, .error ("数据库 " ++ database ++ " 不存在"))
  | some db =>
    match db.collections collection with
    | none => (e, .error ("集合 " ++ collection ++ " 不存在"))
    | some coll =>
      ({ databases := Function.update e.databases database
          (some ⟨Function.update db.collections collection (some ⟨coll.documents ++ documents⟩)⟩) },
        .ok ())

/-- `Find`: every document of the collection; the filter is not read. -/
def find (e : WiredTigerEngine) (database collection : String) : Except String (List Document) :=
  match e.databases database with
  | none => .error ("数据库 " ++ database ++ " 不存在")
  | some db =>
    match db.collections collection with
    | none => .error ("集合 " ++ collection ++ " 不存在")
    | some coll => .ok coll.documents

/-- One call. -/
def exec (e : WiredTigerEngine) : XMongoStorage.WiredTigerEngine.Call → WiredTigerEngine × Except String Unit
  | .createDatabase name => e.createDatabase name
  | .dropDatabase name => e.dropDatabase name
  | .createCollection database collection => e.createCollection database collection
  | .dropCollection database collection => e.dropCollection database collection
  | .insert database collection documents => e.insert database collection documents

/-- A run, with the answer of every call. -/
def trace (e : WiredTigerEngine) :
    List XMongoStorage.WiredTigerEngine.Call → WiredTigerEngine × List (Except String Unit)
  | [] => (e, [])
  | call :: calls =>
    let r := e.exec call
    let t := r.1.trace calls
    (t.1, r.2 :: t.2)

/-- The collection `collection` of database `database`, if both exist. -/
def collectionOf (e : WiredTigerEngine) (database collection : String) : Option Collection :=
  (e.databases database).bind fun db => db.collections collection

theorem find_eq (e : WiredTigerEngine) (database collection : String) {coll : Collection}
    (h : e.collectionOf database collection = some coll) : e.find database collection = .ok coll.documents := by
  obtain ⟨db, hdb, hc⟩ := Option.bind_eq_some.mp h
  simp [find, hdb, hc]

end WiredTigerEngine

end InMemory

namespace WiredTigerEngine

open BTree BTreeRecordStore WiredTigerKVEngine

/-- A run of the KV-backed engine, with the answer of every call. -/
def trace (e : WiredTigerEngine) : List Call → Option (WiredTigerEngine × List (Except String Unit))
  | [] => some (e, [])
  | call :: calls => (e.exec call).bind fun r => (r.1.trace calls).map fun t => (t.1, r.2 :: t.2)

/-! ### The refinement relation -/

/-- The record `r` holds the document `doc` as `Insert` writes it: under the key of a
`long` RecordId, the JSON of the document with its `_id` filled in from that RecordId. -/
def Encodes (r : Bytes × Bytes) (doc : Document) : Prop :=
  ∃ n doc', ensureId doc (.long n) = some doc' ∧ r.1 = RecordId.putUint64 n ∧
    documentToBSON doc' = .ok r.2

/-- The collection `coll` holds the documents of `mcoll`: `Scan(nil)` yields one record per
document, in some order. -/
def Implements (coll : Collection) (mcoll : InMemory.Collection) : Prop :=
  ∃ records, coll.recordStore.scan .null = some (.ok records) ∧
    ∃ l, l.Perm records ∧ List.Forall₂ Encodes l mcoll.documents

/-- The KV-backed engine `e` implements the in-memory engine `m`: the same databases, the
same collections, and each collection holding the same documents. -/
structure Refines (e : WiredTigerEngine) (m : InMemory.WiredTigerEngine) : Prop where
  databases : ∀ database, (e.databases database).isSome = (m.databases database).isSome
  collections : ∀ database collection,
    Option.Rel Implements (e.collectionOf database collection) (m.collectionOf database collection)

theorem implements_empty : Implements emptyCollection ⟨[]⟩ :=
  ⟨[], (newRecordStore_counted.scan_null : _), [], .refl _, .nil⟩

theorem refines_new : Refines newWiredTigerEngine InMemory.WiredTigerEngine.newWiredTigerEngine :=
  ⟨fun _ => rfl, fun _ _ => .none⟩

/-- One document more: a record that encodes it, put anywhere among the others. -/
theorem Implements.insertRecord {coll : Collection} {mcoll : InMemory.Collection}
    (hI : Implements coll mcoll) {L : List Nat} (hL : coll.recordStore.Counted L)
    {recordId : RecordId} {data : Bytes} {rs : BTreeRecordStore}
    (h : coll.recordStore.insertRecord recordId data = some (rs, .ok ())) {doc : Document}
    (hx : ∀ key, recordKey recordId = .ok key → Encodes (key, data) doc) (indexes) :
    Implements { recordStore := rs, indexes } ⟨mcoll.documents ++ [doc]⟩ := by
  obtain ⟨records, hscan, l, hperm, hF⟩ := hI
  obtain ⟨key, L', hkey, hL', P, S, hE, hE'⟩ := hL.insertRecord_ok h
  have hrec : records = P ++ S := by
    rw [← hE]; exact Except.ok.inj (Option.some.inj (hscan.symm.trans hL.scan_null))
  refine ⟨_, hL'.scan_null, l ++ [(key, data)], ?_, List.rel_append hF (.cons (hx key hkey) .nil)⟩
  rw [hE', List.append_assoc, List.singleton_append]
  exact ((hrec ▸ hperm).append_right _).trans
    ((List.perm_append_singleton _ _).trans List.perm_middle.symm)

/-- The document loop, when it succeeds, appends its documents. -/
theorem Implements.insertDocuments :
    ∀ {docs : List Document} {coll : Collection} {mcoll : InMemory.Collection} {next : BitVec 64}
      {r : Collection × BitVec 64 × Except String Unit},
      CollectionOK coll → Implements coll mcoll → insertDocuments coll next docs = some r →
        r.2.2 = .ok () → Implements r.1 ⟨mcoll.documents ++ docs⟩
  | [], _, mcoll, _, _, _, hI, h, _ => by cases h; simpa using hI
  | doc :: docs, coll, mcoll, next, r, hK, hI, h, hok => by
    obtain ⟨-, hr⟩ | ⟨doc', data, rs, indexes, hdoc', hdata, hins, hidx⟩ := insertDocuments_cons h
    · rw [hok] at hr; cases hr
    rcases hidx with ⟨e, -, rfl⟩ | ⟨hidx, h⟩
    · cases hok
    obtain ⟨L, hL⟩ := hK.recordStore
    obtain ⟨-, L', -, hL', -⟩ := hL.insertRecord_ok hins
    have hI' := hI.insertRecord hL hins (fun key hkey => ⟨_, doc', hdoc', (Except.ok.inj hkey).symm, hdata⟩)
      indexes
    simpa using Implements.insertDocuments ⟨⟨L', hL'⟩, insertIndexes_keeps_valid hK.indexes hidx⟩ hI' h hok

/-! ### One call -/

section Step

variable {e e' : WiredTigerEngine} {m m' : InMemory.WiredTigerEngine}

/-- Writing one database slot of both engines keeps the refinement when the two entries
agree. -/
theorem Refines.update (hR : Refines e m) {name : String} {v : Option Database}
    {w : Option InMemory.Database} (hvw : v.isSome = w.isSome)
    (hc : ∀ c, Option.Rel Implements (v.bind fun db => db.collections c) (w.bind fun db => db.collections c))
    (he : e'.databases = Function.update e.databases name v)
    (hm : m'.databases = Function.update m.databases name w) : Refines e' m' := by
  constructor
  · intro d
    rw [he, hm]
    by_cases hd : d = name
    · subst hd; simpa using hvw
    · simpa [Function.update_noteq hd] using hR.databases d
  · intro d c
    by_cases hd : d = name
    · subst hd; simpa [collectionOf, InMemory.WiredTigerEngine.collectionOf, he, hm] using hc c
    · simpa [collectionOf, InMemory.WiredTigerEngine.collectionOf, he, hm, Function.update_noteq hd]
        using hR.collections d c

/-- Writing one collection slot of a database both engines hold keeps the refinement when the
two entries agree. -/
theorem Refines.updateCollection (hR : Refines e m) {database : String} {db : Database}
    {mdb : InMemory.Database} (hdb : e.databases database = some db)
    (hmdb : m.databases database = some mdb) {collection : String} {v : Option Collection}
    {w : Option InMemory.Collection} (hvw : Option.Rel Implements v w)
    (he : e'.databases = Function.update e.databases database (some ⟨Function.update db.collections collection v⟩))
    (hm : m'.databases =
      Function.update m.databases database (some ⟨Function.update mdb.collections collection w⟩)) :
    Refines e' m' := by
  refine hR.update rfl (fun c => ?_) he hm
  by_cases hc : c = collection
  · subst hc; simpa using hvw
  · simpa [Function.update_noteq hc, collectionOf, InMemory.WiredTigerEngine.collectionOf, hdb, hmdb]
      using hR.collections database c

theorem rel_isSome {α β : Type} {R : α → β → Prop} {a : Option α} {b : Option β}
    (h : Option.Rel R a b) : a.isSome = b.isSome := by
  cases h <;> rfl

theorem rel_some_left {α β : Type} {R : α → β → Prop} {a : α} {b : Option β}
    (h : Option.Rel R (some a) b) : ∃ b', b = some b' ∧ R a b' := by
  cases h; exact ⟨_, rfl, ‹_›⟩

/-- The collections of a database both engines hold. -/
theorem Refines.collection (hR : Refines e m) {database : String} {db : Database}
    {mdb : InMemory.Database} (hdb : e.databases database = some db)
    (hmdb : m.databases database = some mdb) (collection : String) :
    Option.Rel Implements (db.collections collection) (mdb.collections collection) := by
  simpa [collectionOf, InMemory.WiredTigerEngine.collectionOf, hdb, hmdb] using
    hR.collections database collection

/-- The database of one engine, given that of the other. -/
theorem Refines.database (hR : Refines e m) {database : String} {db : Database}
    (hdb : e.databases database = some db) : ∃ mdb, m.databases database = some mdb := by
  have := hR.databases database
  rw [hdb, Option.isSome_some, eq_comm, Option.isSome_iff_exists] at this
  exact this

theorem isNone_eq_of_isSome_eq {α β : Type} {a : Option α} {b : Option β}
    (h : a.isSome = b.isSome) : a.isNone = b.isNone := by
  cases a <;> cases b <;> simp_all

theorem Refines.createDatabase (hR : Refines e m) (name : String) :
    (m.createDatabase name).2 = (e.createDatabase name).2 ∧
      Refines (e.createDatabase name).1 (m.createDatabase name).1 := by
  unfold WiredTigerEngine.createDatabase InMemory.WiredTigerEngine.createDatabase
  by_cases h : (e.databases name).isSome
  · rw [if_pos h, if_pos (hR.databases name ▸ h)]; exact ⟨rfl, hR⟩
  · rw [if_neg h, if_neg (hR.databases name ▸ h)]
    exact ⟨rfl, hR.update rfl (fun _ => .none) rfl rfl⟩

theorem Refines.dropDatabase (hR : Refines e m) (name : String) :
    (m.dropDatabase name).2 = (e.dropDatabase name).2 ∧
      Refines (e.dropDatabase name).1 (m.dropDatabase name).1 := by
  unfold WiredTigerEngine.dropDatabase InMemory.WiredTigerEngine.dropDatabase
  have hn := isNone_eq_of_isSome_eq (hR.databases name)
  by_cases h : (e.databases name).isNone
  · rw [if_pos h, if_pos (hn ▸ h)]; exact ⟨rfl, hR⟩
  · rw [if_neg h, if_neg (hn ▸ h)]
    exact ⟨rfl, hR.update rfl (fun _ => .none) rfl rfl⟩

/-- A database one engine lacks, the other lacks. -/
theorem Refines.database_none (hR : Refines e m) {database : String}
    (hdb : e.databases database = none) : m.databases database = none := by
  simpa [hdb] using (hR.databases database).symm

theorem Refines.dropCollection (hR : Refines e m) (database collection : String) :
    (m.dropCollection database collection).2 = (e.dropCollection database collection).2 ∧
      Refines (e.dropCollection database collection).1 (m.dropCollection database collection).1 := by
  unfold WiredTigerEngine.dropCollection InMemory.WiredTigerEngine.dropCollection
  rcases hdb : e.databases database with _ | db
  · rw [hR.database_none hdb]; exact ⟨rfl, hR⟩
  obtain ⟨mdb, hmdb⟩ := hR.database hdb
  rw [hmdb]
  dsimp only
  have hn := isNone_eq_of_isSome_eq (rel_isSome (hR.collection hdb hmdb collection))
  by_cases h : (db.collections collection).isNone
  · rw [if_pos h, if_pos (hn ▸ h)]; exact ⟨rfl, hR⟩
  · rw [if_neg h, if_neg (hn ▸ h)]
    exact ⟨rfl, hR.updateCollection hdb hmdb .none rfl rfl⟩

/-- `CreateCollection` answers alike in both engines unless the KV engine refuses, and then
only the in-memory one succeeds. -/
theorem Refines.createCollection (hR : Refines e m) (database collection : String) :
    ((e.createCollection database collection).2 = .ok () → (m.createCollection database collection).2 = .ok ()) ∧
      ((e.createCollection database collection).2 = (m.createCollection database collection).2 →
        Refines (e.createCollection database collection).1 (m.createCollection database collection).1) := by
  unfold WiredTigerEngine.createCollection InMemory.WiredTigerEngine.createCollection
  rcases hdb : e.databases database with _ | db
  · rw [hR.database_none hdb]; exact ⟨nofun, fun _ => hR⟩
  obtain ⟨mdb, hmdb⟩ := hR.database hdb
  rw [hmdb]
  dsimp only
  have hs := rel_isSome (hR.collection hdb hmdb collection)
  by_cases h : (db.collections collection).isSome
  · rw [if_pos h, if_pos (hs ▸ h)]; exact ⟨nofun, fun _ => hR⟩
  rw [if_neg h, if_neg (hs ▸ h)]
  dsimp only
  rw [createRecordStore_eq]
  by_cases hrs : (e.kvEngine.recordStores (makeNamespace database collection)).isSome
  · rw [if_pos hrs]; exact ⟨nofun, nofun⟩
  rw [if_neg hrs]
  dsimp only
  rw [createSortedDataInterface_eq]
  split_ifs
  · exact ⟨nofun, nofun⟩
  · exact ⟨fun _ => rfl, fun _ => hR.updateCollection hdb hmdb (.some implements_empty) rfl rfl⟩

/-- `Insert` answers alike in both engines unless the document loop fails, and then only
the in-memory one succeeds. -/
theorem Refines.insert (hR : Refines e m) (hK : e.CatalogOK) {database collection : String}
    {documents : List Document} {r : WiredTigerEngine × Except String Unit}
    (h : e.insert database collection documents = some r) :
    (r.2 = .ok () → (m.insert database collection documents).2 = .ok ()) ∧
      (r.2 = (m.insert database collection documents).2 →
        Refines r.1 (m.insert database collection documents).1) := by
  unfold WiredTigerEngine.insert at h
  unfold InMemory.WiredTigerEngine.insert
  rcases hdb : e.databases database with _ | db
  · rw [hdb] at h
    cases h
    rw [hR.database_none hdb]; exact ⟨nofun, fun _ => hR⟩
  obtain ⟨mdb, hmdb⟩ := hR.database hdb
  rw [hdb] at h
  rw [hmdb]
  dsimp only at h ⊢
  have hrel := hR.collection hdb hmdb collection
  rcases hc : db.collections collection with _ | coll
  · rw [hc] at hrel h
    cases h
    rw [show mdb.collections collection = none by simpa using (rel_isSome hrel).symm]
    exact ⟨nofun, fun _ => hR⟩
  rw [hc] at hrel h
  obtain ⟨mcoll, hmc, hI⟩ := rel_some_left hrel
  rw [hmc]
  dsimp only at h ⊢
  obtain ⟨⟨coll', next, res⟩, hr, rfl⟩ := Option.map_eq_some'.mp h
  refine ⟨fun _ => rfl, fun hres => ?_⟩
  exact hR.updateCollection hdb hmdb
    (.some (hI.insertDocuments (hK database collection coll (by simp [collectionOf, hdb, hc])) hr hres))
    rfl rfl

/-- **One call.**  If the KV-backed engine succeeds, so does the in-memory one; and when
the two answer alike, the KV-backed engine goes on implementing the in-memory one. -/
theorem Refines.exec (hR : Refines e m) (hK : e.CatalogOK) {call : Call}
    {r : WiredTigerEngine × Except String Unit} (h : e.exec call = some r) :
    (r.2 = .ok () → (m.exec call).2 = .ok ()) ∧ (r.2 = (m.exec call).2 → Refines r.1 (m.exec call).1) := by
  cases call <;> simp only [WiredTigerEngine.exec, Option.some.injEq] at h <;> (try subst h)
  case createDatabase name =>
    exact (hR.createDatabase name).imp (fun hres h => hres.trans h) fun hR' _ => hR'
  case dropDatabase name =>
    exact (hR.dropDatabase name).imp (fun hres h => hres.trans h) fun hR' _ => hR'
  case createCollection database collection => exact hR.createCollection database collection
  case dropCollection database collection =>
    exact (hR.dropCollection database collection).imp (fun hres h => hres.trans h) fun hR' _ => hR'
  case insert => exact hR.insert hK h

end Step

/-! ### Runs -/

/-- Over a run in which the KV-backed engine succeeds at every call, the in-memory engine
answers alike and the refinement holds at the end. -/
theorem Refines.trace : ∀ (calls : List Call) {e e' : WiredTigerEngine} {m : InMemory.WiredTigerEngine}
    {rs : List (Except String Unit)}, Refines e m → e.CatalogOK → e.trace calls = some (e', rs) →
      (∀ r ∈ rs, r = .ok ()) → (m.trace calls).2 = rs ∧ Refines e' (m.trace calls).1
  | [], _, _, _, _, hR, _, h, _ => by cases h; exact ⟨rfl, hR⟩
  | call :: calls, e, e', m, rs, hR, hK, h, hok => by
    obtain ⟨r, hr, h⟩ := Option.bind_eq_some.mp h
    obtain ⟨t, ht, h⟩ := Option.map_eq_some'.mp h
    obtain ⟨rfl, rfl⟩ := Prod.mk.injEq _ _ _ _ ▸ h
    have hr2 : r.2 = .ok () := hok _ (List.mem_cons_self _ _)
    obtain ⟨hm, hR'⟩ := hR.exec hK hr
    have hK' : r.1.CatalogOK := AllCollections.exec collectionOK_new
      (fun _ _ _ _ hc h => insertDocuments_keeps_ok hc h) hK hr
    obtain ⟨hrs, hR''⟩ := Refines.trace calls (hR' ((hm hr2).trans hr2.symm).symm) hK' ht
      fun r hr => hok r (List.mem_cons_of_mem _ hr)
    exact ⟨by simp [InMemory.WiredTigerEngine.trace, hm hr2, hr2, hrs], hR''⟩

/-- **The KV-backed engine implements the in-memory one.**  Over every run of two new
engines in which every call of the KV-backed engine succeeds, every call answers alike in
both; and at the end each engine holds a database, or a collection, exactly when the other
does, and for each collection `Scan(nil)` of the record store yields one record per document
that `Find` of the in-memory engine returns, in some order, each under the key of a `long`
RecordId and holding the JSON of its document with the `_id` filled in from that RecordId.
The calls carry documents as values: Go's write of that `_id` into the caller's map is not
seen by a later call. -/
theorem trace_refines_inMemory (calls : List Call) {e : WiredTigerEngine}
    {rs : List (Except String Unit)} (h : newWiredTigerEngine.trace calls = some (e, rs))
    (hok : ∀ r ∈ rs, r = .ok ()) :
    (InMemory.WiredTigerEngine.newWiredTigerEngine.trace calls).2 = rs ∧
      ∀ database collection,
        (e.databases database).isSome =
          ((InMemory.WiredTigerEngine.newWiredTigerEngine.trace calls).1.databases database).isSome ∧
        (e.collectionOf database collection).isSome =
          ((InMemory.WiredTigerEngine.newWiredTigerEngine.trace calls).1.collectionOf database
            collection).isSome ∧
        ∀ coll, e.collectionOf database collection = some coll →
          ∃ docs, (InMemory.WiredTigerEngine.newWiredTigerEngine.trace calls).1.find database collection = .ok docs ∧
            ∃ records, coll.recordStore.scan .null = some (.ok records) ∧
              ∃ l, l.Perm records ∧ List.Forall₂ Encodes l docs := by
  obtain ⟨hrs, hR⟩ := Refines.trace calls refines_new allCollections_new h hok
  refine ⟨hrs, fun database collection => ⟨hR.databases database,
    rel_isSome (hR.collections database collection), fun coll hc => ?_⟩⟩
  have hrel := hR.collections database collection
  rw [hc] at hrel
  obtain ⟨mcoll, hm, hI⟩ := rel_some_left hrel
  exact ⟨_, InMemory.WiredTigerEngine.find_eq _ _ _ hm, hI⟩

/-- A collection and two documents, the second an empty map that gets an `_id`. -/
def twoDocumentsRun : List Call :=
  [.createDatabase "d", .createCollection "d" "c", .insert "d" "c" [some [("_id", .string "a")], some []]]

theorem eq_ok_of_isOk {r : Except String Unit} (h : r.isOk = true) : r = .ok () := by
  rcases r with _ | ⟨⟨⟩⟩
  · cases h
  · rfl

theorem twoDocumentsRun_refines :
    ∃ e rs, newWiredTigerEngine.trace twoDocumentsRun = some (e, rs) ∧ (∀ r ∈ rs, r = .ok ()) ∧
      (InMemory.WiredTigerEngine.newWiredTigerEngine.trace twoDocumentsRun).2 = rs := by
  have h : (newWiredTigerEngine.trace twoDocumentsRun).map (fun t => t.2.map Except.isOk) =
      some [true, true, true] := by decide
  obtain ⟨⟨e, rs⟩, ht, hrs⟩ := Option.map_eq_some'.mp h
  have hok : ∀ r ∈ rs, r = .ok () := fun r hr => eq_ok_of_isOk <| by
    have := List.mem_map_of_mem Except.isOk hr
    rw [hrs] at this
    simpa using this
  exact ⟨e, rs, ht, hok, (trace_refines_inMemory twoDocumentsRun ht hok).1⟩

/-! ### Dropping and re-creating a collection -/

/-- **A dropped collection cannot be created again.**  After every run of a new engine,
dropping a collection succeeds and leaves its database without it, yet a `CreateCollection` of
the same names then fails and changes nothing: `DropCollection` leaves the collection's record
store in the KV engine, so its namespace stays taken.  The in-memory copy drops and re-creates
every collection it holds. -/
theorem dropped_collection_not_recreated :
    (∀ (calls : List Call) (e : WiredTigerEngine), newWiredTigerEngine.run calls = some e →
      ∀ database collection, (e.collectionOf database collection).isSome →
        (e.dropCollection database collection).2 = .ok () ∧
        ((e.dropCollection database collection).1.databases database).isSome ∧
        (e.dropCollection database collection).1.collectionOf database collection = none ∧
        ∃ err, (e.dropCollection database collection).1.createCollection database collection =
          ((e.dropCollection database collection).1, .error err)) ∧
    (∀ (m : InMemory.WiredTigerEngine) database collection,
      (m.collectionOf database collection).isSome →
        (m.dropCollection database collection).2 = .ok () ∧
        ((m.dropCollection database collection).1.createCollection database collection).2 =
          .ok ()) := by
  refine ⟨fun calls e hrun database collection hc => ?_, fun m database collection hc => ?_⟩
  · have hheld := CollectionsHeld.run calls collectionsHeld_new hrun database collection hc
    obtain ⟨coll, hcoll⟩ := Option.isSome_iff_exists.mp hc
    obtain ⟨db, hdb, hcoll⟩ := Option.bind_eq_some.mp hcoll
    refine ⟨by simp [WiredTigerEngine.dropCollection, hdb, hcoll],
      by simp [WiredTigerEngine.dropCollection, hdb, hcoll],
      by simp [WiredTigerEngine.dropCollection, collectionOf, hdb, hcoll],
      createCollection_of_not_canCreate fun ⟨_, _, _, hrs⟩ => ?_⟩
    rw [dropCollection_kvEngine] at hrs
    simp [hrs] at hheld
  · obtain ⟨coll, hcoll⟩ := Option.isSome_iff_exists.mp hc
    obtain ⟨db, hdb, hcoll⟩ := Option.bind_eq_some.mp hcoll
    simp [InMemory.WiredTigerEngine.dropCollection, InMemory.WiredTigerEngine.createCollection,
      hdb, hcoll]

/-- A collection created, dropped and created again: the KV-backed engine refuses the second
`CreateCollection`, the in-memory copy makes it. -/
theorem recreateRun_diverges :
    (∃ e, newWiredTigerEngine.run [.createDatabase "d", .createCollection "d" "c"] = some e ∧
      ∃ err, (e.dropCollection "d" "c").1.createCollection "d" "c" =
        ((e.dropCollection "d" "c").1, .error err)) ∧
    (((InMemory.WiredTigerEngine.newWiredTigerEngine.trace
        [.createDatabase "d", .createCollection "d" "c"]).1.dropCollection "d" "c").1.createCollection
          "d" "c").2 = .ok () :=
  ⟨⟨_, rfl, (dropped_collection_not_recreated.1 [.createDatabase "d", .createCollection "d" "c"]
      _ rfl "d" "c" (by rfl)).2.2.2⟩,
    (dropped_collection_not_recreated.2 _ "d" "c" (by rfl)).2⟩

end WiredTigerEngine

end XMongoStorage
