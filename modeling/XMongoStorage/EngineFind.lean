/-
`Find` of the KV-backed engine (the second `WiredTigerEngine` of `btree.go`): `Scan(nil)`
of the collection's record store, each record read back by `bsonToDocument`, and a record
that does not read back skipped.

* `Refines.find` — while the KV-backed engine implements the in-memory one and the latter
  holds only Go maps, the two `Find`s agree;
* `find_refines_inMemory` — over every run of two new engines in which every call of the
  KV-backed engine succeeds and every inserted document is a Go map, `Find` answers alike
  in both: the same error, or, in some order, one document per document the in-memory
  engine returns, that document with its `_id` filled in as `json.Unmarshal` reads it
  back.

Design notes: neither copy reads the filter.  The documents come back changed, their names
as bytes and their integers as `float64`s, which is what `ReadsAs` says.  That the
in-memory engine holds only the documents its calls inserted is a run invariant of its
own (`AllDocuments.trace`).
-/
import XMongoStorage.JsonDecode
import XMongoStorage.InMemoryEngine

namespace XMongoStorage

namespace WiredTigerEngine

/-- `Find` of the KV-backed engine: `bsonToDocument` of each record `Scan(nil)` yields,
skipping a record it cannot read.  The filter is not read. -/
def find (e : WiredTigerEngine) (database collection : String) :
    Option (Except String (List (Option (List (Bytes × JsonValue))))) :=
  match e.databases database with
  | none => some (.error ("数据库 " ++ database ++ " 不存在"))
  | some db =>
    match db.collections collection with
    | none => some (.error ("集合 " ++ collection ++ " 不存在"))
    | some coll =>
      (coll.recordStore.scan .null).map fun
        | .error err => .error ("扫描记录失败: " ++ err)
        | .ok records => .ok (records.filterMap fun r => (bsonToDocument r.2).toOption)

/-- A document KV `Find` returns for a document of the in-memory engine: the document with
its `_id` filled in from a `long` RecordId, as `json.Unmarshal` reads it back, its fields in
some order. -/
def ReadsAs (d : Option (List (Bytes × JsonValue))) (doc : Document) : Prop :=
  ∃ n doc', ensureId doc (.long n) = some doc' ∧ Option.Rel List.Perm d (unmarshalDocument doc')

/-- The two `Find`s agree: the same error, or one document per document, in some order. -/
def FindAgrees : Option (Except String (List (Option (List (Bytes × JsonValue))))) →
    Except String (List Document) → Prop
  | some (.error err), .error err' => err = err'
  | some (.ok ds), .ok docs => ∃ l, l.Perm ds ∧ List.Forall₂ ReadsAs l docs
  | _, _ => False

/-- `ensureId` keeps a Go map one: the `_id` it adds is a name the map lacks. -/
theorem goMap_ensureId {doc doc' : Document} {recordId : RecordId}
    (h : ensureId doc recordId = some doc') (hdoc : goMap doc = true) : goMap doc' = true := by
  unfold ensureId at h
  split at h
  · cases h; exact hdoc
  rename_i hid
  obtain ⟨fields, rfl, rfl⟩ := Option.map_eq_some'.mp h
  obtain ⟨hkeys, hint⟩ := goMap_some.mp hdoc
  have hnot : "_id" ∉ fields.map Prod.fst := fun hmem => hid (by
    obtain ⟨p, hp, hp1⟩ := List.mem_map.mp hmem
    simp only [getField, Option.some_bind, List.lookup_isSome_iff, beq_iff_eq]
    exact ⟨p, hp, hp1.symm⟩)
  refine goMap_some.mpr ⟨?_, fun f hf n hn => ?_⟩
  · rw [List.map_append, List.nodup_append]
    exact ⟨hkeys, List.nodup_singleton _, by simpa using hnot⟩
  · rcases List.mem_append.mp hf with hf | hf
    · exact hint f hf n hn
    · rw [List.mem_singleton] at hf; subst hf; cases hn

/-- A record `Insert` wrote for a Go map reads back as that document. -/
theorem Encodes.readsAs {r : Bytes × Bytes} {doc : Document} (h : Encodes r doc)
    (hdoc : goMap doc = true) : ∃ d, (bsonToDocument r.2).toOption = some d ∧ ReadsAs d doc := by
  obtain ⟨n, doc', hid, -, hdata⟩ := h
  have hdoc' := goMap_ensureId hid hdoc
  cases doc' with
  | none =>
    rw [← Except.ok.inj hdata]
    exact ⟨none, rfl, n, none, hid, .none⟩
  | some fields =>
    obtain ⟨hkeys, hint⟩ := goMap_some.mp hdoc'
    obtain ⟨m, hm, hperm⟩ := bsonToDocument_fields hdata hkeys hint
    exact ⟨some m, by rw [hm]; rfl, n, _, hid, .some hperm⟩

/-- The records of a collection read back as its documents, one by one. -/
theorem Encodes.filterMap_readsAs : ∀ {l : List (Bytes × Bytes)} {docs : List Document},
    List.Forall₂ Encodes l docs → (∀ doc ∈ docs, goMap doc = true) →
      List.Forall₂ ReadsAs (l.filterMap fun r => (bsonToDocument r.2).toOption) docs
  | [], [], .nil, _ => .nil
  | _ :: _, doc :: _, .cons hr hl, hdocs => by
    obtain ⟨d, hd, hread⟩ := hr.readsAs (hdocs doc (List.mem_cons_self _ _))
    simp only [List.filterMap_cons, hd]
    exact .cons hread (Encodes.filterMap_readsAs hl fun doc' h => hdocs doc' (List.mem_cons_of_mem _ h))

end WiredTigerEngine

namespace InMemory.WiredTigerEngine

/-- Every document of every collection of the engine satisfies `P`. -/
def AllDocuments (P : Document → Prop) (m : WiredTigerEngine) : Prop :=
  ∀ database collection coll, m.collectionOf database collection = some coll →
    ∀ doc ∈ coll.documents, P doc

section AllDocuments

variable {P : Document → Prop} {m : WiredTigerEngine}

theorem AllDocuments.update (hm : AllDocuments P m) {name : String} {v : Option Database}
    (hv : ∀ db, v = some db → ∀ c coll, db.collections c = some coll →
      ∀ doc ∈ coll.documents, P doc) :
    AllDocuments P ⟨Function.update m.databases name v⟩ := by
  intro d c coll h
  by_cases hd : d = name
  · subst hd
    obtain ⟨db, hdb, hc⟩ := Option.bind_eq_some.mp h
    exact hv db (by simpa using hdb) c coll hc
  · exact hm d c coll (by simpa [collectionOf, Function.update_noteq hd] using h)

theorem AllDocuments.updateCollection (hm : AllDocuments P m) {database : String} {db : Database}
    (hdb : m.databases database = some db) {collection : String} {w : Option Collection}
    (hw : ∀ coll, w = some coll → ∀ doc ∈ coll.documents, P doc) :
    AllDocuments P ⟨Function.update m.databases database
      (some ⟨Function.update db.collections collection w⟩)⟩ := by
  refine hm.update fun db' hdb' c coll hc => ?_
  cases hdb'
  by_cases h : c = collection
  · subst h
    exact hw coll (by simpa using hc)
  · exact hm database c coll (by simpa [collectionOf, hdb, Function.update_noteq h] using hc)

/-- One call keeps every document satisfying `P` when the documents it inserts do. -/
theorem AllDocuments.exec (hm : AllDocuments P m) {call : XMongoStorage.WiredTigerEngine.Call}
    (hcall : ∀ database collection documents, call = .insert database collection documents →
      ∀ doc ∈ documents, P doc) :
    AllDocuments P (m.exec call).1 := by
  cases call with
  | createDatabase name =>
    rw [InMemory.WiredTigerEngine.exec, createDatabase]
    split_ifs
    · exact hm
    · exact hm.update fun db hdb c coll hc => by cases hdb; cases hc
  | dropDatabase name =>
    rw [InMemory.WiredTigerEngine.exec, dropDatabase]
    split_ifs
    · exact hm
    · exact hm.update fun db hdb => by cases hdb
  | createCollection database collection =>
    rw [InMemory.WiredTigerEngine.exec, createCollection]
    rcases hdb : m.databases database with _ | db
    · exact hm
    · dsimp only
      split_ifs
      · exact hm
      · exact hm.updateCollection hdb fun coll hcoll doc hdoc => by cases hcoll; cases hdoc
  | dropCollection database collection =>
    rw [InMemory.WiredTigerEngine.exec, dropCollection]
    rcases hdb : m.databases database with _ | db
    · exact hm
    · dsimp only
      split_ifs
      · exact hm
      · exact hm.updateCollection hdb fun coll hcoll => by cases hcoll
  | insert database collection documents =>
    rw [InMemory.WiredTigerEngine.exec, insert]
    rcases hdb : m.databases database with _ | db
    · exact hm
    dsimp only
    rcases hc : db.collections collection with _ | coll
    · exact hm
    refine hm.updateCollection hdb fun coll' hcoll doc hdoc => ?_
    cases hcoll
    rcases List.mem_append.mp hdoc with hdoc | hdoc
    · exact hm database collection coll (by simp [collectionOf, hdb, hc]) doc hdoc
    · exact hcall database collection documents rfl doc hdoc

theorem AllDocuments.trace :
    ∀ (calls : List XMongoStorage.WiredTigerEngine.Call) {m : WiredTigerEngine},
    AllDocuments P m → (∀ call ∈ calls, ∀ database collection documents,
      call = .insert database collection documents → ∀ doc ∈ documents, P doc) →
    AllDocuments P (m.trace calls).1
  | [], _, hm, _ => hm
  | call :: calls, _, hm, hcalls =>
    AllDocuments.trace calls (hm.exec (hcalls call (List.mem_cons_self _ _)))
      fun c hc => hcalls c (List.mem_cons_of_mem _ hc)

end AllDocuments

end InMemory.WiredTigerEngine

namespace WiredTigerEngine

/-- KV `Find` agrees with the in-memory `Find` while the refinement holds and the in-memory
engine holds only Go maps. -/
theorem Refines.find {e : WiredTigerEngine} {m : InMemory.WiredTigerEngine} (hR : Refines e m)
    (hm : m.AllDocuments fun doc => goMap doc = true) (database collection : String) :
    FindAgrees (e.find database collection) (m.find database collection) := by
  unfold WiredTigerEngine.find InMemory.WiredTigerEngine.find
  rcases hdb : e.databases database with _ | db
  · rw [hR.database_none hdb]; rfl
  obtain ⟨mdb, hmdb⟩ := hR.database hdb
  rw [hmdb]
  dsimp only
  have hc := hR.collection hdb hmdb collection
  revert hc
  generalize db.collections collection = a
  generalize hb : mdb.collections collection = b
  rintro (@⟨_, mcoll, ⟨records, hscan, l, hperm, hF⟩⟩ | _)
  · have hdocs :=
      hm database collection mcoll (by simp [InMemory.WiredTigerEngine.collectionOf, hmdb, hb])
    dsimp only
    rw [hscan]
    exact ⟨_, hperm.filterMap _, Encodes.filterMap_readsAs hF hdocs⟩
  · rfl

/-- The documents a call inserts, if any, are all Go maps. -/
def Call.insertsGoMaps : Call → Bool
  | .insert _ _ documents => documents.all goMap
  | _ => true

/-- **KV `Find` implements the in-memory `Find`.**  Over every run of two new engines in
which every call of the KV-backed engine succeeds and every inserted document is a Go map,
`Find` of each database and collection answers alike in both: the same error, or, in some
order, one document per document the in-memory engine returns, which is that document with
its `_id` filled in from a `long` RecordId as `json.Unmarshal` reads it back. -/
theorem find_refines_inMemory (calls : List Call) {e : WiredTigerEngine}
    {rs : List (Except String Unit)} (h : newWiredTigerEngine.trace calls = some (e, rs))
    (hok : ∀ r ∈ rs, r = .ok ()) (hcalls : ∀ call ∈ calls, call.insertsGoMaps = true)
    (database collection : String) :
    FindAgrees (e.find database collection)
      ((InMemory.WiredTigerEngine.newWiredTigerEngine.trace calls).1.find database collection) := by
  obtain ⟨-, hR⟩ := Refines.trace calls refines_new allCollections_new h hok
  refine hR.find (InMemory.WiredTigerEngine.AllDocuments.trace calls (fun _ _ _ h => by cases h)
    fun call hc d c docs hcall => ?_) database collection
  subst hcall
  exact List.all_eq_true.mp (hcalls _ hc)

theorem twoDocumentsRun_find :
    ∃ e rs, newWiredTigerEngine.trace twoDocumentsRun = some (e, rs) ∧ (∀ r ∈ rs, r = .ok ()) ∧
      (∀ call ∈ twoDocumentsRun, call.insertsGoMaps = true) ∧
      FindAgrees (e.find "d" "c")
        ((InMemory.WiredTigerEngine.newWiredTigerEngine.trace twoDocumentsRun).1.find "d" "c") := by
  have h : (newWiredTigerEngine.trace twoDocumentsRun).map (fun t => t.2.map Except.isOk) =
      some [true, true, true] := by decide
  obtain ⟨⟨e, rs⟩, ht, hrs⟩ := Option.map_eq_some'.mp h
  have hok : ∀ r ∈ rs, r = .ok () := fun r hr => eq_ok_of_isOk <| by
    have := List.mem_map_of_mem Except.isOk hr
    rw [hrs] at this
    simpa using this
  exact ⟨e, rs, ht, hok, by decide, find_refines_inMemory twoDocumentsRun ht hok (by decide) "d" "c"⟩

end WiredTigerEngine

end XMongoStorage
