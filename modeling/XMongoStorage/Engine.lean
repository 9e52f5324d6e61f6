/-
The storage engine over the KV layer (`WiredTigerEngine` in `btree.go`, with the registries
of `WiredTigerKVEngine`): databases, collections with a record store and a unique `_id_`
index, and `Insert`, which writes each document's record and then its index entries.

`Insert` gives each document the next RecordId, fills in a missing `_id` with that
RecordId's text, stores the JSON encoding in the record store and only then inserts the
`_id` into every index of the collection.  An index insert that fails returns at once: the
record already written stays, with no index entry.

* `createCollection_ok` — a new collection starts with an empty record store and one empty
  unique `_id_` index;
* `CollectionsHeld.run` — after every run, every collection has its record store in the KV
  engine; since no call releases one, a dropped collection cannot be created again
  (`dropped_collection_not_recreated`, beside the in-memory copy that can);
* `duplicate_id_orphans_record` — inserting two documents with one `_id` leaves two records
  in the store and one entry in the `_id_` index;
* `insert_panics_on_id_shape` — a nil document, or one whose `_id` is not a string, makes
  `Insert` panic (or, for the latter, fail) instead of inserting it.

`DropCollection` and `DropDatabase` edit the catalog only: the KV engine keeps the
namespace's record store and `_id_` index, so the namespace stays taken.

Design notes: a document is a nil map or a map from field names to values: strings,
integers, booleans, `nil`, and the values `json.Marshal` rejects, which is what `Insert`
and the encoder tell apart; nested documents and arrays are left out.  The encoding is
written out as `encoding/json` (Go 1.21) produces it.  A panic is `none`.  The collection
holds its own copy of the record store and the index the KV engine registered; in the
source both are one object, and nothing here reads the KV engine's copy.  Go maps are
functions or association lists; `Insert` walks the indexes of a collection in list order,
where Go walks its map in any order.  A `Call` carries its documents as values, the maps'
contents at the call: `Insert`'s write of a missing `_id` into the caller's map is left out,
so a run that reads or reuses a map after inserting it is outside the model.  A string is a
Lean `String`, valid UTF-8: Go strings holding other bytes, which `json.Marshal` replaces
by U+FFFD, are left out.
-/
import XMongoStorage.KVEngine
import Mathlib.Data.List.Sort
import Mathlib.Data.String.Basic

namespace XMongoStorage

open BTree BTreeRecordStore BTreeIndex WiredTigerKVEngine

/-- A field value, Go's `interface{}`: the kinds of value `Insert` and `json.Marshal` tell
apart. -/
inductive Value
  | string (s : String)
  | int (n : Int)
  | bool (b : Bool)
  | null
  /-- A value `json.Marshal` rejects (a channel, a function, a NaN), with its error. -/
  | unsupported (err : String)
  deriving DecidableEq, Repr

/-- A document, Go's `map[string]interface{}`: `none` is a nil map, `some fields` the map of
`fields`. -/
abbrev Document := Option (List (String × Value))

/-- The four hex digits of a `\u` escape. -/
def hex4 (n : Nat) : List Char :=
  [RecordId.hexDigit (n / 4096 % 16), RecordId.hexDigit (n / 256 % 16),
    RecordId.hexDigit (n / 16 % 16), RecordId.hexDigit (n % 16)]

/-- `encoding/json`'s escaping of one character: `"` and the backslash escaped, newline,
carriage return and tab short, other control characters, `<`, `>`, `&`, U+2028 and U+2029
as `\u` escapes. -/
def jsonEscape (c : Char) : List Char :=
  let backslash := Char.ofNat 92
  if c.toNat = 34 ∨ c.toNat = 92 then [backslash, c]
  else if c = '\n' then [backslash, 'n']
  else if c = '\r' then [backslash, 'r']
  else if c = '\t' then [backslash, 't']
  else if c.toNat < 32 ∨ c = '<' ∨ c = '>' ∨ c = '&' ∨ c.toNat = 0x2028 ∨ c.toNat = 0x2029 then
    backslash :: 'u' :: hex4 c.toNat
  else [c]

/-- A JSON string literal. -/
def jsonQuote (s : String) : List Char := Char.ofNat 34 :: s.data.flatMap jsonEscape ++ [Char.ofNat 34]

/-- `json.Marshal` of one value. -/
def encodeValue : Value → Except String (List Char)
  | .string s => .ok (jsonQuote s)
  | .int n => .ok (Int.repr n).data
  | .bool b => .ok (if b then "true" else "false").data
  | .null => .ok "null".data
  | .unsupported err => .error err

/-- `documentToBSON`, that is `json.Marshal` of the document: `null` for a nil map, otherwise
its fields sorted by name, failing at the first value it cannot encode. -/
def documentToBSON : Document → Except String Bytes
  | none => .ok (stringBytes "null")
  | some doc => do
    let fields ← (doc.insertionSort fun a b => a.1 ≤ b.1).mapM fun f => do
      let v ← encodeValue f.2
      pure (jsonQuote f.1 ++ [':'] ++ v)
    pure (stringBytes (String.mk (Char.ofNat 123 :: (List.intercalate [','] fields) ++ [Char.ofNat 125])))

/-- `doc[field]`: a nil map reads as empty. -/
def getField (doc : Document) (field : String) : Option Value := doc.bind fun fields => fields.lookup field

/-- `if _, hasId := doc["_id"]; !hasId { doc["_id"] = recordId.String() }`: `none` is the
panic of the write into a nil map.  In Go the write goes into the caller's map; here the
document is a value, and the caller's copy is left as it was. -/
def ensureId (doc : Document) (recordId : RecordId) : Option Document :=
  if (getField doc "_id").isSome then some doc
  else doc.map fun fields => some (fields ++ [("_id", .string recordId.toString)])

/-- `doc["_id"].(string)`: `none` is the panic of the type assertion on any other value,
a missing one included. -/
def idString (doc : Document) : Option String :=
  match getField doc "_id" with
  | some (.string s) => some s
  | _ => none

/-- `Collection`: its record store and its indexes by name. -/
structure Collection where
  recordStore : BTreeRecordStore
  indexes : List (String × BTreeIndex)

/-- `Database`: its collections by name. -/
structure Database where
  collections : String → Option Collection

/-- `WiredTigerEngine` without its lock, configuration and running flag. -/
structure WiredTigerEngine where
  databases : String → Option Database
  kvEngine : WiredTigerKVEngine
  nextRecordId : BitVec 64

namespace WiredTigerEngine

/-- `NewWiredTigerEngine`: a KV engine with a limit of 1000 sessions. -/
def newWiredTigerEngine : WiredTigerEngine :=
  { databases := fun _ => none, kvEngine := newKVEngine ⟨1000⟩, nextRecordId := 0 }

/-- `makeNamespace`. -/
def makeNamespace (database collection : String) : String := database ++ "." ++ collection

/-- `CreateDatabase`. -/
def createDatabase (e : WiredTigerEngine) (name : String) : WiredTigerEngine × Except String Unit :=
  if (e.databases name).isSome then (e, .error ("数据库 " ++ name ++ " 已存在"))
  else ({ e with databases := Function.update e.databases name (some ⟨fun _ => none⟩) }, .ok ())

/-- `DropDatabase`: the catalog entry only. -/
def dropDatabase (e : WiredTigerEngine) (name : String) : WiredTigerEngine × Except String Unit :=
  if (e.databases name).isNone then (e, .error ("数据库 " ++ name ++ " 不存在"))
  else ({ e with databases := Function.update e.databases name none }, .ok ())

/-- `CreateCollection`: a record store and a unique `_id_` index, each registered with the
KV engine first. -/
def createCollection (e : WiredTigerEngine) (database collection : String) :
    WiredTigerEngine × Except String Unit :=
  match e.databases database with
  | none => (e, .error ("数据库 " ++ database ++ " 不存在"))
  | some db =>
    if (db.collections collection).isSome then (e, .error ("集合 " ++ collection ++ " 已存在"))
    else
      let ns := makeNamespace database collection
      match e.kvEngine.createRecordStore ns with
      | (kvEngine, .error err) => ({ e with kvEngine }, .error ("创建 RecordStore 失败: " ++ err))
      | (kvEngine, .ok recordStore) =>
        let idxName := "_id_"
        match kvEngine.createSortedDataInterface ns idxName true with
        | (kvEngine, .error err) => ({ e with kvEngine }, .error ("创建 _id 索引失败: " ++ err))
        | (kvEngine, .ok idIndex) =>
          let coll : Collection := { recordStore, indexes := [(idxName, idIndex)] }
          ({ e with
              kvEngine
              databases := Function.update e.databases database
                (some ⟨Function.update db.collections collection (some coll)⟩) }, .ok ())

/-- `DropCollection`: the catalog entry only; the KV engine keeps the record store and
the index. -/
def dropCollection (e : WiredTigerEngine) (database collection : String) :
    WiredTigerEngine × Except String Unit :=
  match e.databases database with
  | none => (e, .error ("数据库 " ++ database ++ " 不存在"))
  | some db =>
    if (db.collections collection).isNone then (e, .error ("集合 " ++ collection ++ " 不存在"))
    else
      ({ e with
          databases := Function.update e.databases database
            (some ⟨Function.update db.collections collection none⟩) }, .ok ())

/-- The index loop of `Insert`: `[]byte(doc["_id"].(string))` into every index, stopping at
the first error. -/
def insertIndexes (doc : Document) (recordId : RecordId) :
    List (String × BTreeIndex) → Option (List (String × BTreeIndex) × Except String Unit)
  | [] => some ([], .ok ())
  | (name, idx) :: rest =>
    (idString doc).bind fun id =>
      (idx.insert (stringBytes id) recordId).bind fun
        | (idx, .error e) => some ((name, idx) :: rest, .error ("更新索引失败: " ++ e))
        | (idx, .ok ()) => (insertIndexes doc recordId rest).map fun r => ((name, idx) :: r.1, r.2)

/-- The document loop of `Insert`, with the RecordId counter. -/
def insertDocuments : Collection → BitVec 64 → List Document →
    Option (Collection × BitVec 64 × Except String Unit)
  | coll, next, [] => some (coll, next, .ok ())
  | coll, next, doc :: docs =>
    let next := next + 1
    let recordId := RecordId.long next
    (ensureId doc recordId).bind fun doc =>
      match documentToBSON doc with
      | .error err => some (coll, next, .error ("序列化文档失败: " ++ err))
      | .ok data =>
        (coll.recordStore.insertRecord recordId data).bind fun
          | (_, .error e) => some (coll, next, .error ("插入记录失败: " ++ e))
          | (rs, .ok ()) =>
            (insertIndexes doc recordId coll.indexes).bind fun
              | (indexes, .error e) => some ({ recordStore := rs, indexes }, next, .error e)
              | (indexes, .ok ()) => insertDocuments { recordStore := rs, indexes } next docs

/-- `Insert`. -/
def insert (e : WiredTigerEngine) (database collection : String) (documents : List Document) :
    Option (WiredTigerEngine × Except String Unit) :=
  match e.databases database with
  | none => some (e, .error ("数据库 " ++ database ++ " 不存在"))
  | some db =>
    match db.collections collection with
    | none => some (e, .error ("集合 " ++ collection ++ " 不存在"))
    | some coll =>
      (insertDocuments coll e.nextRecordId documents).map fun (coll, next, r) =>
        ({ e with
            nextRecordId := next
            databases := Function.update e.databases database
              (some ⟨Function.update db.collections collection (some coll)⟩) }, r)

/-- The calls of a run of the engine. -/
inductive Call
  | createDatabase (name : String)
  | dropDatabase (name : String)
  | createCollection (database collection : String)
  | dropCollection (database collection : String)
  | insert (database collection : String) (documents : List Document)

/-- One call. -/
def exec (e : WiredTigerEngine) : Call → Option (WiredTigerEngine × Except String Unit)
  | .createDatabase name => some (e.createDatabase name)
  | .dropDatabase name => some (e.dropDatabase name)
  | .createCollection database collection => some (e.createCollection database collection)
  | .dropCollection database collection => some (e.dropCollection database collection)
  | .insert database collection documents => e.insert database collection documents

/-- A run. -/
def run (e : WiredTigerEngine) : List Call → Option WiredTigerEngine
  | [] => some e
  | call :: calls => (e.exec call).bind fun r => r.1.run calls

/-- The collection `collection` of database `database`, if both exist. -/
def collectionOf (e : WiredTigerEngine) (database collection : String) : Option Collection :=
  (e.databases database).bind fun db => db.collections collection

/-- A successful `CreateCollection` installs an empty record store and an empty unique
`_id_` index. -/
theorem createCollection_ok {e e' : WiredTigerEngine} {database collection : String} {u : Unit}
    (h : e.createCollection database collection = (e', .ok u)) :
    e'.collectionOf database collection =
      some { recordStore := newRecordStore, indexes := [("_id_", newSortedDataInterface true)] } := by
  unfold createCollection at h
  split at h
  · cases h
  · dsimp only at h
    rw [createRecordStore_eq] at h
    split_ifs at h
    · cases h
    · cases h
    · dsimp only at h
      rw [createSortedDataInterface_eq] at h
      split_ifs at h <;> cases h
      simp_all [collectionOf]

/-! ### Creating a collection -/

/-- `CreateCollection(database, collection)` finds the database, no such collection in it,
and no record store of the KV engine under the namespace. -/
def CanCreate (e : WiredTigerEngine) (database collection : String) : Prop :=
  ∃ db, e.databases database = some db ∧ db.collections collection = none ∧
    e.kvEngine.recordStores (makeNamespace database collection) = none

/-- Every index of the KV engine is the `_id_` index of a namespace it has a record store
for. -/
def IdIndexesOwned (kv : WiredTigerKVEngine) : Prop :=
  ∀ key, (kv.indexes key).isSome → ∃ ns, key = makeIndexKey ns "_id_" ∧ (kv.recordStores ns).isSome

theorem makeIndexKey_id_inj {ns ns' : String} (h : makeIndexKey ns "_id_" = makeIndexKey ns' "_id_") :
    ns = ns' :=
  String.ext (List.append_cancel_right (List.append_cancel_right (congrArg String.data h)))

/-- The `_id_` key of a namespace without a record store is free. -/
theorem IdIndexesOwned.free {kv : WiredTigerKVEngine} (h : IdIndexesOwned kv) {ns : String}
    (hns : kv.recordStores ns = none) : kv.indexes (makeIndexKey ns "_id_") = none := by
  by_contra hk
  obtain ⟨ns', hkey, hs⟩ := h _ (Option.ne_none_iff_isSome.mp hk)
  rw [← makeIndexKey_id_inj hkey, hns] at hs
  simp at hs

/-- A `CreateCollection` that cannot create returns an error and changes nothing. -/
theorem createCollection_of_not_canCreate {e : WiredTigerEngine} {database collection : String}
    (hn : ¬ e.CanCreate database collection) :
    ∃ err, e.createCollection database collection = (e, .error err) := by
  unfold createCollection
  rcases hdb : e.databases database with _ | db
  · exact ⟨_, rfl⟩
  dsimp only
  by_cases hc : (db.collections collection).isSome
  · rw [if_pos hc]; exact ⟨_, rfl⟩
  have hrs : (e.kvEngine.recordStores (makeNamespace database collection)).isSome := by
    by_contra hrs
    exact hn ⟨db, hdb, by simpa using hc, by simpa using hrs⟩
  rw [if_neg hc, createRecordStore_eq, if_pos hrs]
  exact ⟨_, rfl⟩

/-- A `CreateCollection` that can create succeeds, and its new `_id_` index belongs to its
new record store. -/
theorem createCollection_of_canCreate {e : WiredTigerEngine} {database collection : String}
    (hO : IdIndexesOwned e.kvEngine) (hc : e.CanCreate database collection) :
    ∃ e', e.createCollection database collection = (e', .ok ()) ∧ IdIndexesOwned e'.kvEngine := by
  obtain ⟨db, hdb, hcoll, hrs⟩ := hc
  have hidx := hO.free hrs
  simp only [createCollection, hdb, hcoll, Option.isSome_none, Bool.false_eq_true, if_false,
    createRecordStore_eq, hrs, createSortedDataInterface_eq, hidx]
  refine ⟨_, rfl, fun key hkey => ?_⟩
  by_cases hk : key = makeIndexKey (makeNamespace database collection) "_id_"
  · exact ⟨_, hk, by simp⟩
  · simp only [Function.update_noteq hk] at hkey
    obtain ⟨ns, rfl, hns⟩ := hO key hkey
    refine ⟨ns, rfl, ?_⟩
    by_cases h : ns = makeNamespace database collection
    · subst h; simp
    · simpa [Function.update_noteq h] using hns

@[simp] theorem createDatabase_kvEngine (e : WiredTigerEngine) (name : String) :
    (e.createDatabase name).1.kvEngine = e.kvEngine := by
  unfold createDatabase; split <;> rfl

@[simp] theorem dropDatabase_kvEngine (e : WiredTigerEngine) (name : String) :
    (e.dropDatabase name).1.kvEngine = e.kvEngine := by
  unfold dropDatabase; split <;> rfl

@[simp] theorem dropCollection_kvEngine (e : WiredTigerEngine) (database collection : String) :
    (e.dropCollection database collection).1.kvEngine = e.kvEngine := by
  unfold dropCollection; split <;> (try split) <;> rfl

theorem insert_kvEngine {e : WiredTigerEngine} {database collection : String}
    {documents : List Document} {r : WiredTigerEngine × Except String Unit}
    (h : e.insert database collection documents = some r) : r.1.kvEngine = e.kvEngine := by
  unfold insert at h
  split at h
  · cases h; rfl
  · split at h
    · cases h; rfl
    · obtain ⟨_, -, rfl⟩ := Option.map_eq_some'.mp h
      rfl

theorem IdIndexesOwned.createCollection {e : WiredTigerEngine} (hO : IdIndexesOwned e.kvEngine)
    (database collection : String) :
    IdIndexesOwned (e.createCollection database collection).1.kvEngine := by
  by_cases hc : e.CanCreate database collection
  · obtain ⟨e', he', hO'⟩ := createCollection_of_canCreate hO hc
    rwa [he']
  · obtain ⟨err, he'⟩ := createCollection_of_not_canCreate hc
    rwa [he']

theorem IdIndexesOwned.run : ∀ (calls : List Call) {e e' : WiredTigerEngine},
    IdIndexesOwned e.kvEngine → e.run calls = some e' → IdIndexesOwned e'.kvEngine
  | [], _, _, hO, h => by cases h; exact hO
  | call :: calls, e, _, hO, h => by
    obtain ⟨r, hr, hrun⟩ := Option.bind_eq_some.mp h
    refine IdIndexesOwned.run calls ?_ hrun
    cases call <;> simp only [exec, Option.some.injEq] at hr <;> (try subst hr)
    case createCollection database collection => exact hO.createCollection database collection
    case insert => rwa [insert_kvEngine hr]
    all_goals simpa using hO

/-! ### Every collection keeps its record store

`CreateCollection` registers the namespace's record store with the KV engine, and nothing
unregisters it: `DropCollection` and `DropDatabase` edit the catalog only. -/

/-- Every collection of the catalog has a record store in the KV engine under its namespace. -/
def CollectionsHeld (e : WiredTigerEngine) : Prop :=
  ∀ database collection, (e.collectionOf database collection).isSome →
    (e.kvEngine.recordStores (makeNamespace database collection)).isSome

/-- Writing one database slot changes the collections of that database only. -/
theorem collectionOf_update {e e' : WiredTigerEngine} {name : String} {v : Option Database}
    (he' : e'.databases = Function.update e.databases name v) (database collection : String) :
    e'.collectionOf database collection =
      if database = name then v.bind fun db => db.collections collection
      else e.collectionOf database collection := by
  rw [collectionOf, he']
  split_ifs with hd
  · subst hd; rw [Function.update_same]
  · rw [Function.update_noteq hd]; rfl

/-- Writing one collection slot of a database changes that collection only. -/
theorem collectionOf_updateCollection {e e' : WiredTigerEngine} {database collection : String}
    {db : Database} (hdb : e.databases database = some db) {v : Option Collection}
    (he' : e'.databases =
      Function.update e.databases database (some ⟨Function.update db.collections collection v⟩))
    (d c : String) :
    e'.collectionOf d c = if d = database ∧ c = collection then v else e.collectionOf d c := by
  rw [collectionOf_update he']
  by_cases hd : d = database
  · subst hd
    by_cases hc : c = collection
    · subst hc; simp
    · simp [hc, collectionOf, hdb, Function.update_noteq hc]
  · simp [hd]

/-- A call keeps every collection held when the KV engine keeps its record stores and each
collection after it either was there before or has its record store. -/
theorem CollectionsHeld.grow {e e' : WiredTigerEngine} (h : e.CollectionsHeld)
    (hkv : ∀ ns, (e.kvEngine.recordStores ns).isSome → (e'.kvEngine.recordStores ns).isSome)
    (hc : ∀ database collection, (e'.collectionOf database collection).isSome →
      (e.collectionOf database collection).isSome ∨
        (e'.kvEngine.recordStores (makeNamespace database collection)).isSome) :
    e'.CollectionsHeld :=
  fun d c hdc => (hc d c hdc).elim (fun h' => hkv _ (h d c h')) id

/-- A call that keeps the KV engine and adds no collection keeps every collection held. -/
theorem CollectionsHeld.of_sub {e e' : WiredTigerEngine} (h : e.CollectionsHeld)
    (hkv : e'.kvEngine = e.kvEngine)
    (hc : ∀ database collection, (e'.collectionOf database collection).isSome →
      (e.collectionOf database collection).isSome) : e'.CollectionsHeld :=
  h.grow (fun _ h => hkv ▸ h) fun d c hdc => .inl (hc d c hdc)

theorem CollectionsHeld.createDatabase {e : WiredTigerEngine} (h : e.CollectionsHeld)
    (name : String) : (e.createDatabase name).1.CollectionsHeld := by
  unfold WiredTigerEngine.createDatabase
  split
  · exact h
  · refine h.of_sub rfl fun d c hdc => ?_
    rw [collectionOf_update rfl] at hdc
    split_ifs at hdc
    · cases hdc
    · exact hdc

theorem CollectionsHeld.dropDatabase {e : WiredTigerEngine} (h : e.CollectionsHeld)
    (name : String) : (e.dropDatabase name).1.CollectionsHeld := by
  unfold WiredTigerEngine.dropDatabase
  split
  · exact h
  · refine h.of_sub rfl fun d c hdc => ?_
    rw [collectionOf_update rfl] at hdc
    split_ifs at hdc
    · cases hdc
    · exact hdc

theorem CollectionsHeld.dropCollection {e : WiredTigerEngine} (h : e.CollectionsHeld)
    (database collection : String) : (e.dropCollection database collection).1.CollectionsHeld := by
  unfold WiredTigerEngine.dropCollection
  split
  · exact h
  rename_i db hdb
  split
  · exact h
  · refine h.of_sub rfl fun d c hdc => ?_
    rw [collectionOf_updateCollection hdb rfl] at hdc
    split_ifs at hdc
    · cases hdc
    · exact hdc

theorem CollectionsHeld.createCollection {e : WiredTigerEngine} (h : e.CollectionsHeld)
    (database collection : String) :
    (e.createCollection database collection).1.CollectionsHeld := by
  unfold WiredTigerEngine.createCollection
  split
  · exact h
  rename_i db hdb
  split
  · exact h
  dsimp only
  rw [createRecordStore_eq]
  split_ifs with hrs
  · exact h.of_sub rfl fun _ _ => id
  dsimp only
  rw [createSortedDataInterface_eq]
  have hkv : ∀ ns, (e.kvEngine.recordStores ns).isSome →
      (Function.update e.kvEngine.recordStores (makeNamespace database collection)
        (some newRecordStore) ns).isSome := fun ns hns => by
    by_cases hn : ns = makeNamespace database collection
    · subst hn; simp
    · rwa [Function.update_noteq hn]
  split_ifs
  · exact h.grow hkv fun d c hdc => .inl hdc
  · refine h.grow hkv fun d c hdc => ?_
    rw [collectionOf_updateCollection hdb rfl] at hdc
    split_ifs at hdc with hdc'
    · obtain ⟨rfl, rfl⟩ := hdc'; exact .inr (by simp)
    · exact .inl hdc

theorem CollectionsHeld.insert {e : WiredTigerEngine} (h : e.CollectionsHeld)
    {database collection : String} {documents : List Document}
    {r : WiredTigerEngine × Except String Unit} (hr : e.insert database collection documents = some r) :
    r.1.CollectionsHeld := by
  refine h.of_sub (insert_kvEngine hr) fun d c hdc => ?_
  unfold WiredTigerEngine.insert at hr
  split at hr
  · cases hr; exact hdc
  rename_i db hdb
  split at hr
  · cases hr; exact hdc
  rename_i coll hcoll
  obtain ⟨_, -, rfl⟩ := Option.map_eq_some'.mp hr
  rw [collectionOf_updateCollection hdb rfl] at hdc
  split_ifs at hdc with hdc'
  · obtain ⟨rfl, rfl⟩ := hdc'; simp [collectionOf, hdb, hcoll]
  · exact hdc

theorem CollectionsHeld.run : ∀ (calls : List Call) {e e' : WiredTigerEngine},
    e.CollectionsHeld → e.run calls = some e' → e'.CollectionsHeld
  | [], _, _, h, hrun => by cases hrun; exact h
  | call :: calls, e, _, h, hcalls => by
    obtain ⟨r, hr, hrun⟩ := Option.bind_eq_some.mp hcalls
    clear hcalls
    refine CollectionsHeld.run calls ?_ hrun
    cases call <;> simp only [exec, Option.some.injEq] at hr <;> (try subst hr)
    case createDatabase name => exact h.createDatabase name
    case dropDatabase name => exact h.dropDatabase name
    case createCollection database collection => exact h.createCollection database collection
    case dropCollection database collection => exact h.dropCollection database collection
    case insert => exact h.insert hr

theorem collectionsHeld_new : newWiredTigerEngine.CollectionsHeld := fun _ _ h => by
  simp [collectionOf, newWiredTigerEngine] at h

/-- Two documents with the `_id` `"a"`, inserted into a new collection. -/
def duplicateIdRun : List Call :=
  [.createDatabase "d", .createCollection "d" "c",
    .insert "d" "c" [some [("_id", .string "a")], some [("_id", .string "a")]]]

/-- After `duplicateIdRun` the record store holds two records while the `_id_` index holds
one entry: the second record has none. -/
theorem duplicate_id_orphans_record :
    ((newWiredTigerEngine.run duplicateIdRun).bind fun e => e.collectionOf "d" "c").map
        (fun c => (c.recordStore.numRecords, c.recordStore.tree.size,
          (c.indexes.lookup "_id_").map fun idx => idx.tree.size)) =
      some (2, some 2, some (some 1)) := by
  decide

/-! ### Documents that panic `Insert` -/

/-- Once the collection exists, `Insert` answers what its document loop answers. -/
theorem insert_eq_map {e : WiredTigerEngine} {database collection : String} {coll : Collection}
    (h : e.collectionOf database collection = some coll) (documents : List Document) :
    (e.insert database collection documents).map Prod.snd =
      (insertDocuments coll e.nextRecordId documents).map fun r => r.2.2 := by
  obtain ⟨db, hdb, hc⟩ := Option.bind_eq_some.mp h
  simp only [insert, hdb, hc, Option.map_map]
  rfl

/-- A nil document panics at the write of its `_id`. -/
theorem insertDocuments_nil_map (coll : Collection) (next : BitVec 64) (docs : List Document) :
    insertDocuments coll next (none :: docs) = none :=
  rfl

/-- With an index to update, the assertion `doc["_id"].(string)` panics on a non-string. -/
theorem insertIndexes_of_idString {doc : Document} (h : idString doc = none) (recordId : RecordId)
    {indexes : List (String × BTreeIndex)} (hne : indexes ≠ []) :
    insertIndexes doc recordId indexes = none := by
  obtain ⟨⟨name, idx⟩, rest, rfl⟩ := List.exists_cons_of_ne_nil hne
  simp only [insertIndexes, h, Option.none_bind]

/-- A document whose `_id` is there but not a string either fails before its record is
written or panics at the index loop. -/
theorem insertDocuments_of_idString {doc : Document} (hid : (getField doc "_id").isSome = true)
    (h : idString doc = none) {coll : Collection} (hne : coll.indexes ≠ []) (next : BitVec 64)
    (docs : List Document) {r : Collection × BitVec 64 × Except String Unit}
    (hr : insertDocuments coll next (doc :: docs) = some r) : r.2.2.isOk = false := by
  simp only [insertDocuments, ensureId, hid, if_true, Option.some_bind] at hr
  split at hr
  · cases hr; rfl
  · obtain ⟨⟨rs, res⟩, -, hr⟩ := Option.bind_eq_some.mp hr
    cases res
    · cases hr; rfl
    · simp [insertIndexes_of_idString h _ hne] at hr

/-- **Documents that panic `Insert`.**  Into every existing collection, a nil document panics
`Insert`, and a document whose `_id` is there but not a string never gets in: once the
collection has an index, `Insert` panics or returns an error.  So `{_id: 1}` panics an
`Insert` into a new collection, at the unchecked `doc["_id"].(string)`. -/
theorem insert_panics_on_id_shape :
    (∀ (e : WiredTigerEngine) (database collection : String) (coll : Collection)
      (docs : List Document), e.collectionOf database collection = some coll →
        e.insert database collection (none :: docs) = none) ∧
    (∀ (e : WiredTigerEngine) (database collection : String) (coll : Collection) (doc : Document)
      (docs : List Document), e.collectionOf database collection = some coll →
        coll.indexes ≠ [] → (getField doc "_id").isSome = true → idString doc = none →
        ∀ r, e.insert database collection (doc :: docs) = some r → r.2.isOk = false) ∧
    ((newWiredTigerEngine.run [.createDatabase "d", .createCollection "d" "c"]).bind fun e =>
      e.insert "d" "c" [some [("_id", .int 1)]]) = none := by
  refine ⟨fun e _ _ coll docs h => ?_, fun e _ _ coll doc docs h hne hid hs r hr => ?_, rfl⟩
  · have := insert_eq_map h (none :: docs)
    rw [insertDocuments_nil_map, Option.map_none'] at this
    exact Option.map_eq_none'.mp this
  · have := insert_eq_map h (doc :: docs)
    rw [hr, Option.map_some'] at this
    obtain ⟨r', hr', hrr⟩ := Option.map_eq_some'.mp this.symm
    rw [← hrr]
    exact insertDocuments_of_idString hid hs hne _ _ hr'

end WiredTigerEngine

end XMongoStorage
