/-
The KV engine (`WiredTigerKVEngine`): a running flag, a registry of record stores by
namespace, a registry of indexes by the string `namespace + "." + indexName`, and the
sessions it has created.

Each registry call is a create, a lookup or a delete on one key of a string-keyed map
(`mapCreate`, `mapGet`, `mapDrop`); `DropRecordStore` also deletes every index key that
is longer than the namespace and starts with it, byte for byte.  `Stop` ends each session,
ignoring what `End` returns, and empties the session registry.

* `index_registry_keyed_by_string` — each index call reads or writes the entry of the
  one string `makeIndexKey ns n` and no other; `DropRecordStore(ns)` clears exactly the
  keys that extend `ns`;
* `index_pairs_collide` — so two pairs with one string share an index, and dropping the
  store `a` drops the index of `ab`;
* `stop_leaves_session_active` — a session whose rollback fails is still active and in its
  transaction after `End`, and after `Stop`;
* `run_sessions` — after every run the registry holds each session id once and at most
  `MaxSessions` sessions, and no later call short of `Stop` removes one;
* `createSession_fails_once_full` — so once the registry is full, `CreateSession` fails for
  good, however many of its sessions have ended.

Design notes: Go maps of pointers are value maps here.  A session is reached through
the handle its creator holds; a call on it is a call on the session the registry holds
(`onSession`), and `Stop` returns the sessions as `End` leaves them, beside the engine.
The UUID of a new session is the argument `sessionId`.  The cache size and the checkpoint
flag of the configuration are read only by `GetStats`, which is left out.
-/
import XMongoStorage.SortedData
import XMongoStorage.Session

namespace XMongoStorage

open BTreeRecordStore BTreeIndex

/-! ### String-keyed registries -/

section Registry

variable {α : Type} (m : String → Option α) (key : String)

/-- Registering `value` under a free `key`; `err` if the key is taken. -/
def mapCreate (value : α) (err : String) : (String → Option α) × Except String α :=
  if (m key).isSome then (m, .error err) else (Function.update m key (some value), .ok value)

/-- Looking `key` up; `err` if it is free. -/
def mapGet (err : String) : Except String α :=
  match m key with
  | none => .error err
  | some value => .ok value

/-- Deleting `key`; `err` if it is free. -/
def mapDrop (err : String) : (String → Option α) × Except String Unit :=
  if (m key).isNone then (m, .error err) else (Function.update m key none, .ok ())

@[simp] theorem mapGet_toOption (err : String) : (mapGet m key err).toOption = m key := by
  unfold mapGet; split <;> simp_all [Except.toOption]

@[simp] theorem mapCreate_fst (value : α) (err : String) :
    (mapCreate m key value err).1 =
      if (m key).isSome then m else Function.update m key (some value) := by
  unfold mapCreate; split <;> rfl

@[simp] theorem mapCreate_isOk (value : α) (err : String) :
    (mapCreate m key value err).2.isOk = (m key).isNone := by
  unfold mapCreate; cases m key <;> rfl

@[simp] theorem mapDrop_fst (err : String) : (mapDrop m key err).1 = Function.update m key none := by
  unfold mapDrop
  split_ifs with h
  · funext k
    by_cases hk : k = key
    · subst hk; simpa using h
    · simp [hk]
  · rfl

@[simp] theorem mapDrop_isOk (err : String) : (mapDrop m key err).2.isOk = (m key).isSome := by
  unfold mapDrop; cases m key <;> rfl

end Registry

/-- `KVEngineConfig`: the session limit. -/
structure KVEngineConfig where
  maxSessions : Int

/-- `WiredTigerKVEngine` without its lock. -/
structure WiredTigerKVEngine where
  running : Bool
  recordStores : String → Option BTreeRecordStore
  indexes : String → Option BTreeIndex
  sessions : List (String × WiredTigerSession)
  sessionCount : Nat
  config : KVEngineConfig

namespace WiredTigerKVEngine

/-- `NewKVEngine`: a session limit of `0` means `1000`. -/
def newKVEngine (config : KVEngineConfig) : WiredTigerKVEngine :=
  { running := false, recordStores := fun _ => none, indexes := fun _ => none, sessions := [],
    sessionCount := 0,
    config := { maxSessions := if config.maxSessions = 0 then 1000 else config.maxSessions } }

/-- `makeIndexKey`; `ns` is the source's `namespace`, a keyword here. -/
def makeIndexKey (ns indexName : String) : String := ns ++ "." ++ indexName

/-- The test of `DropRecordStore(ns)` on an index key: `len(key) > len(ns)` and
`key[:len(ns)] == ns`, on bytes. -/
def hasNamespacePrefix (ns key : String) : Bool :=
  (stringBytes ns).length < (stringBytes key).length &&
    (stringBytes key).take (stringBytes ns).length == stringBytes ns

/-- `Start`. -/
def start (e : WiredTigerKVEngine) : WiredTigerKVEngine × Except String Unit :=
  if e.running then (e, .error "KV 引擎已经在运行") else ({ e with running := true }, .ok ())

/-- `Stop`: the engine, and each session as `End` leaves it.  Its `error` is nil on every
path. -/
def stop (env : Outcomes) (e : WiredTigerKVEngine) :
    WiredTigerKVEngine × List (String × WiredTigerSession) :=
  if !e.running then (e, [])
  else ({ e with sessions := [], running := false },
    e.sessions.map fun p => (p.1, (WiredTigerSession.endSession env p.2).1))

/-- Go's `m[k] = v` on the session registry. -/
def setSession (sessions : List (String × WiredTigerSession)) (sessionId : String)
    (session : WiredTigerSession) : List (String × WiredTigerSession) :=
  (sessionId, session) :: sessions.filter fun p => p.1 ≠ sessionId

/-- `CreateSession`, with `sessionId` for the UUID it draws. -/
def createSession (e : WiredTigerKVEngine) (sessionId : String) :
    WiredTigerKVEngine × Except String WiredTigerSession :=
  if !e.running then (e, .error "KV 引擎未运行")
  else if e.config.maxSessions ≤ e.sessions.length then
    (e, .error ("超过最大会话数限制: " ++ Int.repr e.config.maxSessions))
  else
    match (WiredTigerSession.newEngineSession sessionId).begin with
    | (_, .error err) => (e, .error ("启动会话失败: " ++ err))
    | (session, .ok ()) =>
      ({ e with sessions := setSession e.sessions sessionId session,
                sessionCount := e.sessionCount + 1 }, .ok session)

/-- A call on the session `sessionId` through its creator's handle; an id the registry does
not hold names no session here, and nothing happens. -/
def onSession (env : Outcomes) (e : WiredTigerKVEngine) (sessionId : String)
    (call : WiredTigerSession.Call) : WiredTigerKVEngine × Except String Unit :=
  match e.sessions.lookup sessionId with
  | none => (e, .ok ())
  | some session =>
    let r := WiredTigerSession.exec env session call
    ({ e with sessions := setSession e.sessions sessionId r.1 }, r.2)

/-- `GetRecordStore`. -/
def getRecordStore (e : WiredTigerKVEngine) (ns : String) : Except String BTreeRecordStore :=
  mapGet e.recordStores ns ("RecordStore " ++ ns ++ " 不存在")

/-- `CreateRecordStore`. -/
def createRecordStore (e : WiredTigerKVEngine) (ns : String) :
    WiredTigerKVEngine × Except String BTreeRecordStore :=
  let r := mapCreate e.recordStores ns newRecordStore ("RecordStore " ++ ns ++ " 已存在")
  ({ e with recordStores := r.1 }, r.2)

/-- `DropRecordStore`: the store, then every index key that extends `ns`. -/
def dropRecordStore (e : WiredTigerKVEngine) (ns : String) : WiredTigerKVEngine × Except String Unit :=
  match mapDrop e.recordStores ns ("RecordStore " ++ ns ++ " 不存在") with
  | (_, .error err) => (e, .error err)
  | (recordStores, .ok ()) =>
    ({ e with recordStores, indexes := fun key => if hasNamespacePrefix ns key then none else e.indexes key },
      .ok ())

/-- `GetSortedDataInterface`. -/
def getSortedDataInterface (e : WiredTigerKVEngine) (ns indexName : String) : Except String BTreeIndex :=
  mapGet e.indexes (makeIndexKey ns indexName) ("索引 " ++ ns ++ "." ++ indexName ++ " 不存在")

/-- `CreateSortedDataInterface`. -/
def createSortedDataInterface (e : WiredTigerKVEngine) (ns indexName : String) (unique : Bool) :
    WiredTigerKVEngine × Except String BTreeIndex :=
  let r := mapCreate e.indexes (makeIndexKey ns indexName) (newSortedDataInterface unique)
    ("索引 " ++ ns ++ "." ++ indexName ++ " 已存在")
  ({ e with indexes := r.1 }, r.2)

/-- `DropSortedDataInterface`. -/
def dropSortedDataInterface (e : WiredTigerKVEngine) (ns indexName : String) :
    WiredTigerKVEngine × Except String Unit :=
  let r := mapDrop e.indexes (makeIndexKey ns indexName) ("索引 " ++ ns ++ "." ++ indexName ++ " 不存在")
  ({ e with indexes := r.1 }, r.2)

/-- The calls of a run of the engine, apart from lookups. -/
inductive Call
  | start
  | createSession (sessionId : String)
  | onSession (sessionId : String) (call : WiredTigerSession.Call)
  | createRecordStore (ns : String)
  | dropRecordStore (ns : String)
  | createSortedDataInterface (ns indexName : String) (unique : Bool)
  | dropSortedDataInterface (ns indexName : String)

/-- One call. -/
def exec (env : Outcomes) (e : WiredTigerKVEngine) : Call → WiredTigerKVEngine
  | .start => e.start.1
  | .createSession sessionId => (e.createSession sessionId).1
  | .onSession sessionId call => (e.onSession env sessionId call).1
  | .createRecordStore ns => (e.createRecordStore ns).1
  | .dropRecordStore ns => (e.dropRecordStore ns).1
  | .createSortedDataInterface ns indexName unique => (e.createSortedDataInterface ns indexName unique).1
  | .dropSortedDataInterface ns indexName => (e.dropSortedDataInterface ns indexName).1

/-- A run, one call after the other. -/
def run (env : Outcomes) (e : WiredTigerKVEngine) (calls : List Call) : WiredTigerKVEngine :=
  calls.foldl (exec env) e

/-! ### The index registry -/

theorem createRecordStore_eq (e : WiredTigerKVEngine) (ns : String) :
    e.createRecordStore ns =
      if (e.recordStores ns).isSome then (e, .error ("RecordStore " ++ ns ++ " 已存在"))
      else ({ e with recordStores := Function.update e.recordStores ns (some newRecordStore) },
        .ok newRecordStore) := by
  unfold createRecordStore mapCreate; split <;> rfl

theorem createSortedDataInterface_eq (e : WiredTigerKVEngine) (ns indexName : String) (unique : Bool) :
    e.createSortedDataInterface ns indexName unique =
      if (e.indexes (makeIndexKey ns indexName)).isSome then
        (e, .error ("索引 " ++ ns ++ "." ++ indexName ++ " 已存在"))
      else
        ({ e with
            indexes := Function.update e.indexes (makeIndexKey ns indexName)
              (some (newSortedDataInterface unique)) }, .ok (newSortedDataInterface unique)) := by
  unfold createSortedDataInterface mapCreate; split <;> rfl

theorem dropRecordStore_indexes (e : WiredTigerKVEngine) (ns : String) :
    (e.dropRecordStore ns).1.indexes =
      if (e.recordStores ns).isSome then fun key => if hasNamespacePrefix ns key then none else e.indexes key
      else e.indexes := by
  unfold dropRecordStore mapDrop
  cases e.recordStores ns <;> rfl

theorem dropRecordStore_isOk (e : WiredTigerKVEngine) (ns : String) :
    (e.dropRecordStore ns).2.isOk = (e.recordStores ns).isSome := by
  unfold dropRecordStore mapDrop
  cases e.recordStores ns <;> rfl

/-- **The index registry is keyed by the joined string.**  From every engine state, each
index call on the pair `(ns, n)` reads or writes the entry of the string
`makeIndexKey ns n` and leaves every other string's entry alone: `Get` reads it, `Create`
fails exactly when it is taken and otherwise writes a new index there, `Drop` fails
exactly when it is free and otherwise clears it.  `DropRecordStore(ns)` fails exactly when
`ns` has no store and otherwise clears exactly the keys that extend `ns` byte for byte;
`CreateRecordStore` leaves the index registry alone. -/
theorem index_registry_keyed_by_string (e : WiredTigerKVEngine) (ns n : String) (unique : Bool) :
    (e.getSortedDataInterface ns n).toOption = e.indexes (makeIndexKey ns n) ∧
    (e.createSortedDataInterface ns n unique).2.isOk = (e.indexes (makeIndexKey ns n)).isNone ∧
    (e.createSortedDataInterface ns n unique).1.indexes =
      (if (e.indexes (makeIndexKey ns n)).isSome then e.indexes
        else Function.update e.indexes (makeIndexKey ns n) (some (newSortedDataInterface unique))) ∧
    (e.dropSortedDataInterface ns n).2.isOk = (e.indexes (makeIndexKey ns n)).isSome ∧
    (e.dropSortedDataInterface ns n).1.indexes = Function.update e.indexes (makeIndexKey ns n) none ∧
    (e.dropRecordStore ns).2.isOk = (e.recordStores ns).isSome ∧
    (e.dropRecordStore ns).1.indexes =
      (if (e.recordStores ns).isSome then fun key => if hasNamespacePrefix ns key then none else e.indexes key
        else e.indexes) ∧
    (e.createRecordStore ns).1.indexes = e.indexes :=
  ⟨mapGet_toOption .., mapCreate_isOk .., mapCreate_fst .., mapDrop_isOk .., mapDrop_fst ..,
    dropRecordStore_isOk .., dropRecordStore_indexes .., rfl⟩

/-- The pairs `("a.b", "c")` and `("a", "b.c")` share the key `"a.b.c"`: creating the
second fails, and looking it up finds the first.  Dropping the store `"a"` drops the index
`"ab.x"`. -/
theorem index_pairs_collide :
    (((newKVEngine ⟨0⟩).createSortedDataInterface "a.b" "c" true).1.createSortedDataInterface
        "a" "b.c" true).2 = .error "索引 a.b.c 已存在" ∧
      (((newKVEngine ⟨0⟩).createSortedDataInterface "a.b" "c" true).1.getSortedDataInterface
        "a" "b.c").isOk = true ∧
      ((((newKVEngine ⟨0⟩).createRecordStore "a").1.createSortedDataInterface "ab" "x" true).1.dropRecordStore
        "a").1.getSortedDataInterface "ab" "x" = .error "索引 ab.x 不存在" :=
  ⟨rfl, rfl, rfl⟩

/-! ### Stopping the engine -/

/-- A started engine with one session `"s"` holding a transaction of one change. -/
def openTransactionRun : List Call :=
  [.start, .createSession "s", .onSession "s" (.beginTransaction 1), .onSession "s" (.registerChange 0)]

/-- With a failing rollback action, `End` returns its error before clearing the flags: the
session stays active and in its transaction, both after `End` and after `Stop`. -/
theorem stop_leaves_session_active :
    (let s := WiredTigerSession.run WiredTigerRecoveryUnit.rollbacksFail
        (WiredTigerSession.newEngineSession "s") [.begin, .beginTransaction 1, .registerChange 0]
      let r := WiredTigerSession.endSession WiredTigerRecoveryUnit.rollbacksFail s
      (r.2.isOk, r.1.active, r.1.inTransaction)) = (false, true, true) ∧
    ((stop WiredTigerRecoveryUnit.rollbacksFail
        (run WiredTigerRecoveryUnit.rollbacksFail (newKVEngine ⟨0⟩) openTransactionRun)).2.map
      fun p => (p.1, p.2.active, p.2.inTransaction)) = [("s", true, true)] := by
  decide

/-! ### The session registry -/

/-- The session ids after Go's `m[k] = v` on the registry. -/
theorem setSession_ids (sessions : List (String × WiredTigerSession)) (sessionId : String)
    (session : WiredTigerSession) :
    (setSession sessions sessionId session).map Prod.fst =
      sessionId :: (sessions.map Prod.fst).filter (· != sessionId) := by
  simp [setSession, List.filter_map, Function.comp_def]
  rfl

theorem mem_ids_of_lookup {sessionId : String} {session : WiredTigerSession} :
    ∀ {sessions : List (String × WiredTigerSession)}, sessions.lookup sessionId = some session →
      sessionId ∈ sessions.map Prod.fst
  | [], h => by cases h
  | (k, _) :: sessions, h => by
    rw [List.lookup_cons] at h
    split at h
    · simp_all
    · exact List.mem_cons_of_mem _ (mem_ids_of_lookup h)

theorem run_append {env : Outcomes} (e : WiredTigerKVEngine) (calls more : List Call) :
    e.run env (calls ++ more) = (e.run env calls).run env more :=
  List.foldl_append _ _ _ _

/-- The registry as `CreateSession` keeps it: each session id once, and no more sessions
than the limit. -/
structure SessionsOK (e : WiredTigerKVEngine) : Prop where
  nodup : (e.sessions.map Prod.fst).Nodup
  bound : (e.sessions.length : Int) ≤ max e.config.maxSessions 0

section Sessions

variable (env : Outcomes)

/-- What a call does to the registry: nothing, or Go's `m[k] = v` on an id the registry
holds, or, for `CreateSession` below the limit, on any id; the limit stays. -/
theorem exec_sessions (e : WiredTigerKVEngine) (call : Call) :
    (e.exec env call).config = e.config ∧
      ((e.exec env call).sessions = e.sessions ∨
        ∃ sessionId session, (e.exec env call).sessions = setSession e.sessions sessionId session ∧
          ((e.sessions.length : Int) < e.config.maxSessions ∨ sessionId ∈ e.sessions.map Prod.fst)) := by
  cases call with
  | start =>
    dsimp only [exec]; unfold start
    split <;> exact ⟨rfl, .inl rfl⟩
  | createSession sessionId =>
    dsimp only [exec]; unfold createSession
    split
    · exact ⟨rfl, .inl rfl⟩
    split
    · exact ⟨rfl, .inl rfl⟩
    rename_i hlt
    split
    · exact ⟨rfl, .inl rfl⟩
    · exact ⟨rfl, .inr ⟨_, _, rfl, .inl (by omega)⟩⟩
  | onSession sessionId call =>
    dsimp only [exec]; unfold onSession
    split
    · exact ⟨rfl, .inl rfl⟩
    rename_i session hs
    exact ⟨rfl, .inr ⟨_, _, rfl, .inr (mem_ids_of_lookup hs)⟩⟩
  | createRecordStore ns => exact ⟨rfl, .inl rfl⟩
  | dropRecordStore ns => dsimp only [exec]; unfold dropRecordStore; split <;> exact ⟨rfl, .inl rfl⟩
  | createSortedDataInterface ns indexName unique => exact ⟨rfl, .inl rfl⟩
  | dropSortedDataInterface ns indexName => exact ⟨rfl, .inl rfl⟩

theorem sessionsOK_new (config : KVEngineConfig) : SessionsOK (newKVEngine config) :=
  ⟨List.nodup_nil, by simp [newKVEngine]⟩

/-- One call keeps the registry OK and every session id in it. -/
theorem SessionsOK.exec {e : WiredTigerKVEngine} (hS : SessionsOK e) (call : Call) :
    SessionsOK (e.exec env call) ∧
      e.sessions.map Prod.fst ⊆ (e.exec env call).sessions.map Prod.fst := by
  obtain ⟨hconfig, hsame | ⟨sessionId, session, hset, hroom⟩⟩ := exec_sessions env e call
  · refine ⟨⟨?_, ?_⟩, ?_⟩ <;> rw [hsame]
    exacts [hS.nodup, hconfig ▸ hS.bound, fun _ h => h]
  have hids := setSession_ids e.sessions sessionId session
  have hlen : (e.exec env call).sessions.length =
      ((e.sessions.map Prod.fst).filter (· != sessionId)).length + 1 := by
    rw [← List.length_map _ Prod.fst, hset, hids, List.length_cons]
  refine ⟨⟨?_, ?_⟩, fun x hx => ?_⟩
  · rw [hset, hids]
    exact List.nodup_cons.mpr ⟨by simp, hS.nodup.filter _⟩
  · rw [hconfig, hlen]
    rcases hroom with hroom | hmem
    · have := List.length_filter_le (· != sessionId) (e.sessions.map Prod.fst)
      simp only [List.length_map] at this
      omega
    · have := List.length_erase_of_mem hmem
      rw [hS.nodup.erase_eq_filter, List.length_map] at this
      have := hS.bound
      have := List.length_pos_of_mem hmem
      simp only [List.length_map] at this
      omega
  · rw [hset, hids]
    by_cases hx' : x = sessionId
    · exact hx' ▸ List.mem_cons_self _ _
    · exact List.mem_cons_of_mem _ (List.mem_filter.mpr ⟨hx, by simpa using hx'⟩)

theorem SessionsOK.run : ∀ (calls : List Call) {e : WiredTigerKVEngine}, SessionsOK e →
    SessionsOK (e.run env calls) ∧ e.sessions.map Prod.fst ⊆ (e.run env calls).sessions.map Prod.fst
  | [], _, hS => ⟨hS, fun _ h => h⟩
  | call :: calls, e, hS => by
    obtain ⟨hS₁, h₁⟩ := hS.exec env call
    obtain ⟨hS₂, h₂⟩ := SessionsOK.run calls hS₁
    exact ⟨hS₂, fun x hx => h₂ (h₁ hx)⟩

/-- The limit a run keeps is the one `NewKVEngine` set. -/
theorem run_config : ∀ (calls : List Call) (e : WiredTigerKVEngine), (e.run env calls).config = e.config
  | [], _ => rfl
  | call :: calls, e => (run_config calls (e.exec env call)).trans (exec_sessions env e call).1

end Sessions

/-- **The session registry.**  After every run of a new KV engine the registry holds each
session id once and at most `MaxSessions` sessions (`1000` for a limit of `0`, none for a
negative one); and every later call keeps every session it holds. -/
theorem run_sessions (env : Outcomes) (config : KVEngineConfig) (calls more : List Call) :
    (((newKVEngine config).run env calls).sessions.map Prod.fst).Nodup ∧
      (((newKVEngine config).run env calls).sessions.length : Int) ≤
        max (if config.maxSessions = 0 then 1000 else config.maxSessions) 0 ∧
      ((newKVEngine config).run env calls).sessions.map Prod.fst ⊆
        ((newKVEngine config).run env (calls ++ more)).sessions.map Prod.fst := by
  obtain ⟨hS, -⟩ := SessionsOK.run env calls (sessionsOK_new config)
  have hbound := hS.bound
  rw [run_config] at hbound
  refine ⟨hS.nodup, hbound, ?_⟩
  rw [run_append]
  exact (SessionsOK.run env more hS).2

/-- **Ended sessions hold their places.**  Once a run of a new KV engine has filled the
registry to `MaxSessions`, `CreateSession` fails after every later run of calls, `End` on
every session included: only `Stop` empties the registry. -/
theorem createSession_fails_once_full (env : Outcomes) (config : KVEngineConfig)
    (calls more : List Call)
    (hfull : ((newKVEngine config).run env calls).config.maxSessions ≤
      ((newKVEngine config).run env calls).sessions.length) (sessionId : String) :
    (((newKVEngine config).run env (calls ++ more)).createSession sessionId).2.isOk = false := by
  obtain ⟨hS, -⟩ := SessionsOK.run env calls (sessionsOK_new config)
  have hsub := (SessionsOK.run env more hS).2
  have hle := (List.subperm_of_subset hS.nodup hsub).length_le
  rw [← run_append] at hle
  simp only [List.length_map] at hle
  have hconfig : ((newKVEngine config).run env (calls ++ more)).config =
      ((newKVEngine config).run env calls).config := by rw [run_config, run_config]
  unfold createSession
  split
  · rfl
  rw [if_pos (by rw [hconfig]; omega)]
  rfl

theorem endedSession_blocks_createSession :
    ((newKVEngine ⟨1⟩).run WiredTigerRecoveryUnit.allSucceed [.start, .createSession "a"]).config.maxSessions ≤
        ((newKVEngine ⟨1⟩).run WiredTigerRecoveryUnit.allSucceed [.start, .createSession "a"]).sessions.length ∧
      (((newKVEngine ⟨1⟩).run WiredTigerRecoveryUnit.allSucceed
        ([.start, .createSession "a"] ++ [.onSession "a" .endSession])).createSession "b").2.isOk = false :=
  ⟨by decide, createSession_fails_once_full _ ⟨1⟩ [.start, .createSession "a"] [.onSession "a" .endSession]
    (by decide) "b"⟩

end WiredTigerKVEngine

end XMongoStorage
