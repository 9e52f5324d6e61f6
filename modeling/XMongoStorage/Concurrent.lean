/-
Calls running concurrently: the record store's and the index's calls as sequences of
atomic steps, and every interleaving of them.

The B+Tree takes its own lock in every call, and the counters are atomics, so each tree
call and each counter update is one atomic step.  Neither the record store nor the index
holds a lock of its own across a call: `InsertRecord` looks the key up, writes the tree
and bumps two counters in four separate steps, and `BTreeIndex.Insert` checks the key,
writes the tree and bumps its counter in three.

A call in flight is a `Prog`: finished with its result, or waiting to take one atomic step
on the shared state, which also yields the rest of the call.  `Sys.interleave` runs a
schedule: a list of the calls that step, in order.

* `runAlone_insertRecordProg` (and its siblings) — a call that runs alone computes exactly
  the sequential call of `RecordStore.lean` / `SortedData.lean`;
* `interleave_keeps` — an invariant kept by every atomic step of every call holds after
  every interleaving; so every step returns and the tree keeps its shape and its leaf chain,
  whatever the schedule, and `Scan` and `SeekRange` still return the chain's entries
  (`interleave_store_valid`, `interleave_index_valid`);
* `insert_race_both_succeed` — two `InsertRecord` calls for one RecordId can both succeed,
  counting two records for the tree's one;
* `unique_insert_race` — two `Insert` calls of one key into a unique index can both
  succeed, leaving two live entries with that key.
-/
import XMongoStorage.SortedData

namespace XMongoStorage

open BTree

/-- A call in flight over the shared state `σ`: finished with Go's `error`, or about to
take one atomic step, which returns the new state and the rest of the call (`none` if the
step never returns). -/
inductive Prog (σ : Type) where
  | done (result : Except String Unit)
  | step (next : σ → Option (σ × Prog σ))

namespace Prog

variable {σ : Type}

/-- The call runs alone for at most `fuel` steps. -/
def runAlone : Nat → σ → Prog σ → Option (σ × Except String Unit)
  | _, s, .done r => some (s, r)
  | 0, _, .step _ => none
  | fuel + 1, s, .step next => (next s).bind fun r => runAlone fuel r.1 r.2

/-- Whether the call has returned without an error. -/
def succeeded : Prog σ → Bool
  | .done (.ok _) => true
  | _ => false

/-- Every atomic step of the call, from a state with `I`, returns and keeps `I`. -/
inductive Keeps (I : σ → Prop) : Prog σ → Prop
  | done (r : Except String Unit) : Keeps I (.done r)
  | step (next : σ → Option (σ × Prog σ)) :
      (∀ s, I s → next s ≠ none) →
      (∀ s s' p', I s → next s = some (s', p') → I s') →
      (∀ s s' p', I s → next s = some (s', p') → Keeps I p') → Keeps I (.step next)

end Prog

/-- The shared state and the calls in flight. -/
structure Sys (σ : Type) where
  shared : σ
  threads : List (Prog σ)

namespace Sys

variable {σ : Type}

/-- Call `i` takes its next atomic step; a finished call, or an index with no call, leaves
the system as it is. -/
def schedule (s : Sys σ) (i : Nat) : Option (Sys σ) :=
  match s.threads[i]? with
  | some (.step next) => (next s.shared).map fun r => { shared := r.1, threads := s.threads.set i r.2 }
  | _ => some s

/-- A schedule: the calls that step, in order. -/
def interleave (s : Sys σ) : List Nat → Option (Sys σ)
  | [] => some s
  | i :: is => (s.schedule i).bind fun s' => s'.interleave is

variable {I : σ → Prop}

/-- One scheduled step keeps an invariant that every atomic step of every call keeps. -/
theorem schedule_keeps {s : Sys σ} (hI : I s.shared) (hT : ∀ p ∈ s.threads, p.Keeps I) (i : Nat) :
    ∃ s', s.schedule i = some s' ∧ I s'.shared ∧ ∀ p ∈ s'.threads, p.Keeps I := by
  unfold schedule
  split
  · rename_i next hi
    obtain ⟨s', p', hnext, hI', hp'⟩ : ∃ s' p', next s.shared = some (s', p') ∧ I s' ∧ p'.Keeps I := by
      cases hT _ (List.getElem?_mem hi) with
      | step _ hret hI' hp' =>
        obtain ⟨⟨s', p'⟩, hnext⟩ := Option.ne_none_iff_exists'.mp (hret _ hI)
        exact ⟨s', p', hnext, hI' _ _ _ hI hnext, hp' _ _ _ hI hnext⟩
    refine ⟨_, by rw [hnext]; rfl, hI', fun p hp => ?_⟩
    rcases List.mem_or_eq_of_mem_set hp with hp | rfl
    · exact hT p hp
    · exact hp'
  · exact ⟨s, rfl, hI, hT⟩

/-- **Run lemma.**  An invariant kept by every atomic step of every call holds after every
interleaving, and every scheduled step returns. -/
theorem interleave_keeps {s : Sys σ} (hI : I s.shared) (hT : ∀ p ∈ s.threads, p.Keeps I)
    (sched : List Nat) :
    ∃ s', s.interleave sched = some s' ∧ I s'.shared ∧ ∀ p ∈ s'.threads, p.Keeps I := by
  induction sched generalizing s with
  | nil => exact ⟨s, rfl, hI, hT⟩
  | cons i is ih =>
    obtain ⟨s₁, h₁, hI₁, hT₁⟩ := schedule_keeps hI hT i
    obtain ⟨s₂, h₂, hI₂, hT₂⟩ := ih hI₁ hT₁
    exact ⟨s₂, by simp [interleave, h₁, h₂], hI₂, hT₂⟩

end Sys

/-! ### Atomic steps on a shared B+Tree -/

/-- A shared state that holds a B+Tree (the record store and the index). -/
class HasTree (σ : Type) where
  tree : σ → BTree
  withTree : σ → BTree → σ
  tree_withTree : ∀ s t, tree (withTree s t) = t

namespace Prog

variable {σ : Type} [HasTree σ]

/-- One atomic read (`Get`, `keyExists`): the state is unchanged and the rest of the call
sees the result. -/
def readStep {α : Type} (read : σ → Option α) (k : α → Prog σ) : Prog σ :=
  .step fun s => (read s).map fun a => (s, k a)

/-- One atomic tree write (`Insert`, `Delete`): the new tree is stored, or, on its error,
the state is unchanged and the call goes on with `onError`. -/
def writeStep (write : BTree → Option (Except String BTree)) (onError : String → Prog σ)
    (k : Prog σ) : Prog σ :=
  .step fun s => (write (HasTree.tree s)).map fun
    | .error e => (s, onError e)
    | .ok t => (HasTree.withTree s t, k)

/-- One atomic counter update. -/
def updateStep (f : σ → σ) (k : Prog σ) : Prog σ := .step fun s => some (f s, k)

variable {P : BTree → Prop}

/-- The tree of the state satisfies `P`. -/
def TreeHas (P : BTree → Prop) (s : σ) : Prop := P (HasTree.tree s)

theorem readStep_keeps {α : Type} {read : σ → Option α} {k : α → Prog σ}
    (hread : ∀ s, TreeHas P s → read s ≠ none) (hk : ∀ a, (k a).Keeps (TreeHas P)) :
    (readStep read k).Keeps (TreeHas P) := by
  refine .step _ (fun s hs => by simpa using hread _ hs) ?_ ?_ <;>
    · intro s s' p' hs h
      obtain ⟨a, -, h⟩ := Option.map_eq_some'.mp h
      cases h
      first | exact hs | exact hk a

theorem writeStep_keeps {write : BTree → Option (Except String BTree)}
    {onError : String → Prog σ} {k : Prog σ}
    (hwrite : ∀ t : BTree, P t → ∃ r, write t = some r ∧ ∀ t', r = .ok t' → P t')
    (he : ∀ e, (onError e).Keeps (TreeHas P)) (hk : k.Keeps (TreeHas P)) :
    (writeStep write onError k).Keeps (TreeHas P) := by
  refine .step _ (fun s hs => ?_) (fun s s' p' hs h => ?_) (fun s s' p' hs h => ?_)
  · obtain ⟨r, hr, -⟩ := hwrite _ hs
    simp [hr]
  all_goals
    obtain ⟨r, hr, hok⟩ := hwrite _ hs
    rw [hr] at h
    rcases r with e | t <;> simp only [Option.map_some', Option.some.injEq, Prod.mk.injEq] at h <;>
      obtain ⟨rfl, rfl⟩ := h
  · exact hs
  · simpa [TreeHas, HasTree.tree_withTree] using hok t rfl
  · exact he e
  · exact hk

theorem updateStep_keeps {f : σ → σ} {k : Prog σ} (hf : ∀ s, HasTree.tree (f s) = HasTree.tree s)
    (hk : k.Keeps (TreeHas P)) : (updateStep f k).Keeps (TreeHas P) := by
  refine .step _ (fun _ _ => by simp) ?_ ?_ <;>
    · intro s s' p' hs h
      cases h
      first | simpa [TreeHas, hf] using hs | exact hk

end Prog

/-! ### The record store's calls, step by step -/

namespace BTreeRecordStore

open Prog

instance : HasTree BTreeRecordStore where
  tree rs := rs.tree
  withTree rs tree := { rs with tree }
  tree_withTree _ _ := rfl

/-- `InsertRecord` as atomic steps: `Get`, `Insert`, then the two counter adds. -/
def insertRecordProg (recordId : RecordId) (data : Bytes) : Prog BTreeRecordStore :=
  match recordKey recordId with
  | .error e => .done (.error e)
  | .ok key => readStep (·.tree.get key) fun
    | some _ => .done (.error ("RecordId " ++ recordId.toString ++ " 已存在"))
    | none => writeStep (·.insert key data) (fun e => .done (.error ("插入记录失败: " ++ e))) <|
      updateStep (fun rs => { rs with numRecords := rs.numRecords + 1 }) <|
      updateStep (fun rs => { rs with dataSize := rs.dataSize + data.length }) (.done (.ok ()))

/-- `UpdateRecord` as atomic steps: `Get`, `Insert`, then the data-size add. -/
def updateRecordProg (recordId : RecordId) (data : Bytes) : Prog BTreeRecordStore :=
  match recordKey recordId with
  | .error e => .done (.error e)
  | .ok key => readStep (·.tree.get key) fun
    | none => .done (.error (notFound recordId))
    | some oldData => writeStep (·.insert key data) (fun e => .done (.error ("更新记录失败: " ++ e))) <|
      updateStep (fun rs => { rs with dataSize := rs.dataSize + ((data.length : Int) - oldData.length) })
        (.done (.ok ()))

/-- `DeleteRecord` as atomic steps: `Get`, `Delete`, then the two counter adds. -/
def deleteRecordProg (recordId : RecordId) : Prog BTreeRecordStore :=
  match recordKey recordId with
  | .error e => .done (.error e)
  | .ok key => readStep (·.tree.get key) fun
    | none => .done (.error (notFound recordId))
    | some data => writeStep (·.delete key) (fun e => .done (.error ("删除记录失败: " ++ e))) <|
      updateStep (fun rs => { rs with numRecords := rs.numRecords - 1 }) <|
      updateStep (fun rs => { rs with dataSize := rs.dataSize - data.length }) (.done (.ok ()))

theorem runAlone_insertRecordProg (rs : BTreeRecordStore) (recordId : RecordId) (data : Bytes) :
    (insertRecordProg recordId data).runAlone 4 rs = rs.insertRecord recordId data := by
  unfold insertRecordProg insertRecord
  cases recordKey recordId with
  | error e => rfl
  | ok key =>
    rcases hg : rs.tree.get key with _ | _ | _ <;>
      simp [hg, runAlone, readStep, writeStep, updateStep, HasTree.tree]
    rcases hi : rs.tree.insert key data with _ | _ | _ <;> simp [hi, runAlone, HasTree.withTree]

theorem runAlone_updateRecordProg (rs : BTreeRecordStore) (recordId : RecordId) (data : Bytes) :
    (updateRecordProg recordId data).runAlone 3 rs = rs.updateRecord recordId data := by
  unfold updateRecordProg updateRecord
  cases recordKey recordId with
  | error e => rfl
  | ok key =>
    rcases hg : rs.tree.get key with _ | _ | _ <;>
      simp [hg, runAlone, readStep, writeStep, updateStep, HasTree.tree]
    rcases hi : rs.tree.insert key data with _ | _ | _ <;> simp [hi, runAlone, HasTree.withTree]

theorem runAlone_deleteRecordProg (rs : BTreeRecordStore) (recordId : RecordId) :
    (deleteRecordProg recordId).runAlone 4 rs = rs.deleteRecord recordId := by
  unfold deleteRecordProg deleteRecord
  cases recordKey recordId with
  | error e => rfl
  | ok key =>
    rcases hg : rs.tree.get key with _ | _ | _ <;>
      simp [hg, runAlone, readStep, writeStep, updateStep, HasTree.tree]
    rcases hd : rs.tree.delete key with _ | _ | _ <;> simp [hd, runAlone, HasTree.withTree]

theorem get_ne_none {t : BTree} (hS : t.Shape) (key : Bytes) : t.get key ≠ none := by
  obtain ⟨r, hr⟩ := get_spec hS key
  simp [hr]

/-- Every atomic step of the three calls keeps the tree valid and returns. -/
theorem insertRecordProg_keeps (recordId : RecordId) (data : Bytes) :
    (insertRecordProg recordId data).Keeps (TreeHas BTree.Valid) := by
  unfold insertRecordProg
  split
  · exact .done _
  · refine readStep_keeps (fun rs hV => get_ne_none hV.1 _) ?_
    rintro (_ | _)
    · exact writeStep_keeps (fun _ hV => insert_valid hV _ _) (fun _ => .done _) <|
        updateStep_keeps (fun _ => rfl) <| updateStep_keeps (fun _ => rfl) (.done _)
    · exact .done _

theorem updateRecordProg_keeps (recordId : RecordId) (data : Bytes) :
    (updateRecordProg recordId data).Keeps (TreeHas BTree.Valid) := by
  unfold updateRecordProg
  split
  · exact .done _
  · refine readStep_keeps (fun rs hV => get_ne_none hV.1 _) ?_
    rintro (_ | _)
    · exact .done _
    · exact writeStep_keeps (fun _ hV => insert_valid hV _ _) (fun _ => .done _) <|
        updateStep_keeps (fun _ => rfl) (.done _)

theorem deleteRecordProg_keeps (recordId : RecordId) :
    (deleteRecordProg recordId).Keeps (TreeHas BTree.Valid) := by
  unfold deleteRecordProg
  split
  · exact .done _
  · refine readStep_keeps (fun rs hV => get_ne_none hV.1 _) ?_
    rintro (_ | _)
    · exact .done _
    · exact writeStep_keeps (fun _ hV => delete_valid hV _) (fun _ => .done _) <|
        updateStep_keeps (fun _ => rfl) <| updateStep_keeps (fun _ => rfl) (.done _)

/-- The calls of a concurrent history of the record store. -/
inductive StoreCall
  | insertRecord (recordId : RecordId) (data : Bytes)
  | updateRecord (recordId : RecordId) (data : Bytes)
  | deleteRecord (recordId : RecordId)

/-- A call of the history, about to start. -/
def StoreCall.prog : StoreCall → Prog BTreeRecordStore
  | .insertRecord recordId data => insertRecordProg recordId data
  | .updateRecord recordId data => updateRecordProg recordId data
  | .deleteRecord recordId => deleteRecordProg recordId

/-- Whatever the calls and the schedule, from a store whose tree is valid every atomic step
returns, and the tree stays valid. -/
theorem interleave_store_valid {rs : BTreeRecordStore} (hV : rs.tree.Valid) (calls : List StoreCall)
    (sched : List Nat) :
    ∃ s, Sys.interleave ⟨rs, calls.map StoreCall.prog⟩ sched = some s ∧ s.shared.tree.Valid := by
  obtain ⟨s, hs, hI, -⟩ := Sys.interleave_keeps (s := ⟨rs, calls.map StoreCall.prog⟩)
    (I := TreeHas BTree.Valid) hV (fun p hp => by
      obtain ⟨c, -, rfl⟩ := List.mem_map.mp hp
      cases c
      exacts [insertRecordProg_keeps _ _, updateRecordProg_keeps _ _, deleteRecordProg_keeps _])
    sched
  exact ⟨s, hs, hI⟩

/-- Two `InsertRecord` calls for one RecordId on a new store, interleaved as in
`insert_race_both_succeed`, leave its tree valid. -/
theorem insertRace_keeps_valid :
    newRecordStore.tree.Valid ∧ ∃ s, Sys.interleave
      ⟨newRecordStore, [StoreCall.insertRecord (.long 1) [7], .insertRecord (.long 1) [7]].map
        StoreCall.prog⟩ [0, 1, 0, 1, 0, 0, 1, 1] = some s ∧ s.shared.tree.Valid :=
  ⟨newBTree_valid 128, interleave_store_valid (newBTree_valid 128) _ _⟩

/-- Two `InsertRecord` calls for one RecordId, each looking the key up before either
writes. -/
def insertRace : Sys BTreeRecordStore :=
  ⟨newRecordStore, [insertRecordProg (.long 1) [7], insertRecordProg (.long 1) [7]]⟩

/-- Both calls succeed, and once both have returned `NumRecords()` and `DataSize()` are 2
while the tree holds one key, with one byte. -/
theorem insert_race_both_succeed :
    (insertRace.interleave [0, 1, 0, 1, 0, 0, 1, 1]).map (fun s => s.threads.map Prog.succeeded) =
        some [true, true] ∧
      (insertRace.interleave [0, 1, 0, 1, 0, 0, 1, 1]).map
        (fun s => (s.shared.numRecords, s.shared.dataSize)) = some (2, 2) ∧
      (insertRace.interleave [0, 1, 0, 1, 0, 0, 1, 1]).map (fun s => s.shared.tree.range [] none) =
        some (some [(RecordId.putUint64 1, [7])]) := by
  decide

end BTreeRecordStore

/-! ### The index's calls, step by step -/

namespace BTreeIndex

open Prog

instance : HasTree BTreeIndex where
  tree idx := idx.tree
  withTree idx tree := { idx with tree }
  tree_withTree _ _ := rfl

/-- The tree insert and the counter update that end `Insert`. -/
def insertEntryProg (key : Bytes) (recordId : RecordId) : Prog BTreeIndex :=
  writeStep (·.insert (makeCompositeKey key recordId) (recordId.asBytes.getD []))
    (fun e => .done (.error ("插入索引失败: " ++ e))) <|
  updateStep (fun idx => { idx with numEntries := idx.numEntries + 1 }) (.done (.ok ()))

/-- `Insert` as atomic steps: for a unique index `keyExists` (one `Range`), then the tree
insert and the counter update.  `unique` is the index's flag, fixed when it is made. -/
def insertProg (unique : Bool) (key : Bytes) (recordId : RecordId) : Prog BTreeIndex :=
  if key.length = 0 then .done (.error "索引键不能为空")
  else if recordId.isNull then .done (.error "RecordId 不能为空")
  else if unique then
    readStep (·.keyExists key) fun found =>
      if found then .done (.error ("唯一索引约束违反: 键 " ++ RecordId.hexBytes key ++ " 已存在"))
      else insertEntryProg key recordId
  else insertEntryProg key recordId

/-- `Remove` as atomic steps: the tree delete, then the counter update. -/
def removeProg (key : Bytes) (recordId : RecordId) : Prog BTreeIndex :=
  if key.length = 0 then .done (.error "索引键不能为空")
  else if recordId.isNull then .done (.error "RecordId 不能为空")
  else writeStep (·.delete (makeCompositeKey key recordId))
    (fun e => .done (.error ("删除索引失败: " ++ e))) <|
    updateStep (fun idx => { idx with numEntries := idx.numEntries - 1 }) (.done (.ok ()))

theorem runAlone_insertEntryProg (idx : BTreeIndex) (key : Bytes) (recordId : RecordId) (n : Nat) :
    (insertEntryProg key recordId).runAlone (n + 2) idx = idx.insertEntry key recordId := by
  unfold insertEntryProg insertEntry
  rcases hi : idx.tree.insert (makeCompositeKey key recordId) (recordId.asBytes.getD []) with
    _ | _ | _ <;> simp [hi, runAlone, writeStep, updateStep, HasTree.tree, HasTree.withTree]

theorem runAlone_insertProg (idx : BTreeIndex) (key : Bytes) (recordId : RecordId) :
    (insertProg idx.unique key recordId).runAlone 3 idx = idx.insert key recordId := by
  unfold insertProg insert
  by_cases h₁ : key.length = 0
  · rw [if_pos h₁, if_pos h₁]; rfl
  rw [if_neg h₁, if_neg h₁]
  by_cases h₂ : recordId.isNull = true
  · rw [if_pos h₂, if_pos h₂]; rfl
  rw [if_neg h₂, if_neg h₂]
  by_cases h₃ : idx.unique = true
  · rw [if_pos h₃, if_pos h₃]
    rcases hk : idx.keyExists key with _ | _ | _ <;>
      simp only [hk, runAlone, readStep, Option.map_none', Option.map_some', Option.none_bind,
        Option.some_bind, if_true, Bool.false_eq_true, if_false]
    exact runAlone_insertEntryProg idx key recordId 0
  · rw [if_neg h₃, if_neg h₃]
    exact runAlone_insertEntryProg idx key recordId 1

theorem runAlone_removeProg (idx : BTreeIndex) (key : Bytes) (recordId : RecordId) :
    (removeProg key recordId).runAlone 2 idx = idx.remove key recordId := by
  unfold removeProg remove
  split_ifs
  · rfl
  · rfl
  · rcases hd : idx.tree.delete (makeCompositeKey key recordId) with _ | _ | _ <;>
      simp [hd, runAlone, writeStep, updateStep, HasTree.tree, HasTree.withTree]

/-- Every atomic step of `Insert` and `Remove` keeps the tree valid and returns. -/
theorem insertEntryProg_keeps (key : Bytes) (recordId : RecordId) :
    (insertEntryProg key recordId).Keeps (TreeHas BTree.Valid) :=
  writeStep_keeps (fun _ hV => insert_valid hV _ _) (fun _ => .done _) <|
    updateStep_keeps (fun _ => rfl) (.done _)

theorem insertProg_keeps (unique : Bool) (key : Bytes) (recordId : RecordId) :
    (insertProg unique key recordId).Keeps (TreeHas BTree.Valid) := by
  unfold insertProg
  by_cases h₁ : key.length = 0
  · rw [if_pos h₁]; exact .done _
  by_cases h₂ : recordId.isNull
  · rw [if_neg h₁, if_pos h₂]; exact .done _
  rw [if_neg h₁, if_neg h₂]
  by_cases h₃ : unique
  · rw [if_pos h₃]
    refine readStep_keeps (fun _ hV => keyExists_ne_none hV key) fun found => ?_
    cases found
    · rw [if_neg Bool.false_ne_true]; exact insertEntryProg_keeps key recordId
    · rw [if_pos rfl]; exact .done _
  · rw [if_neg h₃]; exact insertEntryProg_keeps key recordId

theorem removeProg_keeps (key : Bytes) (recordId : RecordId) :
    (removeProg key recordId).Keeps (TreeHas BTree.Valid) := by
  unfold removeProg
  split_ifs
  · exact .done _
  · exact .done _
  · exact writeStep_keeps (fun _ hV => delete_valid hV _) (fun _ => .done _) <|
      updateStep_keeps (fun _ => rfl) (.done _)

/-- The calls of a concurrent history of one index. -/
inductive IndexCall
  | insert (key : Bytes) (recordId : RecordId)
  | remove (key : Bytes) (recordId : RecordId)

/-- A call of the history, about to start, on an index whose flag is `unique`. -/
def IndexCall.prog (unique : Bool) : IndexCall → Prog BTreeIndex
  | .insert key recordId => insertProg unique key recordId
  | .remove key recordId => removeProg key recordId

/-- Whatever the calls and the schedule, from an index whose tree is valid every atomic
step returns, the scans of `keyExists` included, and the tree stays valid. -/
theorem interleave_index_valid {idx : BTreeIndex} (hV : idx.tree.Valid) (calls : List IndexCall)
    (sched : List Nat) :
    ∃ s, Sys.interleave ⟨idx, calls.map (IndexCall.prog idx.unique)⟩ sched = some s ∧
      s.shared.tree.Valid := by
  obtain ⟨s, hs, hI, -⟩ := Sys.interleave_keeps (s := ⟨idx, calls.map (IndexCall.prog idx.unique)⟩)
    (I := TreeHas BTree.Valid) hV (fun p hp => by
      obtain ⟨c, -, rfl⟩ := List.mem_map.mp hp
      cases c
      exacts [insertProg_keeps _ _ _, removeProg_keeps _ _])
    sched
  exact ⟨s, hs, hI⟩

/-- Two `Insert` calls of one key into a new unique index, interleaved as in
`unique_insert_race`, leave its tree valid. -/
theorem uniqueRace_keeps_valid :
    (newSortedDataInterface true).tree.Valid ∧ ∃ s, Sys.interleave
      ⟨newSortedDataInterface true, [IndexCall.insert [1] (.long 1), .insert [1] (.long 2)].map
        (IndexCall.prog (newSortedDataInterface true).unique)⟩ [0, 1, 0, 1, 0, 1] = some s ∧
      s.shared.tree.Valid :=
  ⟨newBTree_valid 128, interleave_index_valid (newBTree_valid 128) _ _⟩

/-- Two `Insert` calls of the key `[1]` into a unique index, with different RecordIds. -/
def uniqueRace : Sys BTreeIndex :=
  ⟨newSortedDataInterface true, [insertProg true [1] (.long 1), insertProg true [1] (.long 2)]⟩

/-- Both `keyExists` checks run before either tree insert: both calls succeed, and the
tree then holds two live entries whose index key is `[1]`. -/
theorem unique_insert_race :
    (uniqueRace.interleave [0, 1, 0, 1, 0, 1]).map (fun s => s.threads.map Prog.succeeded) =
        some [true, true] ∧
      (uniqueRace.interleave [0, 1, 0, 1, 0, 1]).map
        (fun s => (s.shared.tree.range [] none).map fun l => l.map fun e => cursorKey e.1) =
        some (some [some [1], some [1]]) := by
  decide

end BTreeIndex

end XMongoStorage
