/-
The recovery unit (`recovery_unit.go`): a transaction state, two timestamps and the log of
registered changes, each with a commit action and a rollback action.

`Commit` runs the commit actions in registration order and `Rollback` the rollback actions
in reverse order, both stopping at the first action that fails.  A failed commit moves the
unit to `Aborted` but keeps the change log; a failed rollback returns at once and leaves
the unit `Active` with its whole log, so a later `Commit` or `Rollback` runs the actions
again from the start.

A change is named by a number, and what its actions return is up to the environment
(`Outcomes`): any function of the invocations made so far, so a change may fail once and
succeed later.  The `World` records every invocation.

* `commit_rollback_invoke_pending` — after every run, a `Commit` that succeeds invokes the
  commit actions of the changes registered since the last `BeginTransaction` that
  succeeded, in order, and a `Rollback` that succeeds their rollback actions in reverse;
* `run_invokes_once` — if no rollback action ever fails and no change is registered twice
  by a `RegisterChange` that succeeds, each change has at most one action invoked over the
  whole run, at most once;
* `rollback_failure_reruns` — with a rollback action that fails, one change gets both its
  actions invoked;
* `commit_timestamp_outlives_transaction` — `BeginTransaction` keeps the commit timestamp,
  so a reused unit commits every later transaction with the first one's timestamp.

Design notes: timestamps are numbers, `0` being Go's zero `time.Time`; `time.Now()` is
the argument `now` of the calls that read the clock.  The snapshot map is only ever reset
and is left out, as is `PrepareForHistoryStore`, which does nothing.
-/
import Mathlib.Data.List.Nodup

namespace XMongoStorage

/-- `TransactionState`. -/
inductive TransactionState
  | inactive
  | active
  | committed
  | aborted
  deriving DecidableEq, Repr

/-- The two actions of a change. -/
inductive Action
  | commit
  | rollback
  deriving DecidableEq, Repr

/-- One invocation of a registered change's action. -/
structure Invocation where
  change : Nat
  action : Action
  deriving DecidableEq, Repr

/-- What each action returns, given the invocations before it: `none` for success,
`some err` for its error. -/
abbrev Outcomes := List Invocation → Invocation → Option String

/-- `WiredTigerRecoveryUnit` without its lock and snapshot. -/
structure WiredTigerRecoveryUnit where
  state : TransactionState
  readTimestamp : Nat
  commitTimestamp : Nat
  changes : List Nat
  deriving DecidableEq, Repr

namespace WiredTigerRecoveryUnit

/-- `NewRecoveryUnit`. -/
def newRecoveryUnit : WiredTigerRecoveryUnit :=
  { state := .inactive, readTimestamp := 0, commitTimestamp := 0, changes := [] }

/-- The recovery unit and the log of every change action invoked so far. -/
structure World where
  ru : WiredTigerRecoveryUnit
  log : List Invocation
  deriving DecidableEq, Repr

/-- Runs `action` of each change in order until one fails: the log grown by the invocations
made, and the error that stopped the loop. -/
def invokeAll (env : Outcomes) (action : Action) : List Invocation → List Nat →
    List Invocation × Option String
  | log, [] => (log, none)
  | log, c :: cs =>
    match env log ⟨c, action⟩ with
    | some err => (log ++ [⟨c, action⟩], some err)
    | none => invokeAll env action (log ++ [⟨c, action⟩]) cs

/-- `BeginTransaction`. -/
def beginTransaction (w : World) (now : Nat) : World × Except String Unit :=
  if w.ru.state = .active then (w, .error "事务已经处于活动状态")
  else ({ w with ru := { w.ru with state := .active, readTimestamp := now, changes := [] } }, .ok ())

/-- `Commit`: the commit actions in registration order. -/
def commit (env : Outcomes) (w : World) (now : Nat) : World × Except String Unit :=
  if w.ru.state ≠ .active then (w, .error "没有活动的事务可以提交")
  else
    let ru := if w.ru.commitTimestamp = 0 then { w.ru with commitTimestamp := now } else w.ru
    match invokeAll env .commit w.log w.ru.changes with
    | (log, some err) => ({ ru := { ru with state := .aborted }, log }, .error ("提交变更失败: " ++ err))
    | (log, none) => ({ ru := { ru with state := .committed, changes := [] }, log }, .ok ())

/-- `Rollback`: the rollback actions in reverse registration order. -/
def rollback (env : Outcomes) (w : World) : World × Except String Unit :=
  if w.ru.state ≠ .active then (w, .error "没有活动的事务可以回滚")
  else
    match invokeAll env .rollback w.log w.ru.changes.reverse with
    | (log, some err) => ({ w with log }, .error ("回滚变更失败: " ++ err))
    | (log, none) => ({ ru := { w.ru with state := .aborted, changes := [] }, log }, .ok ())

/-- `SetCommitTimestamp`. -/
def setCommitTimestamp (w : World) (ts : Nat) : World × Except String Unit :=
  if w.ru.state ≠ .active then (w, .error "只能在活动事务中设置提交时间戳")
  else ({ w with ru := { w.ru with commitTimestamp := ts } }, .ok ())

/-- `RegisterChange`. -/
def registerChange (w : World) (change : Nat) : World × Except String Unit :=
  if w.ru.state ≠ .active then (w, .error "只能在活动事务中注册变更")
  else ({ w with ru := { w.ru with changes := w.ru.changes ++ [change] } }, .ok ())

/-- `IsActive`. -/
def isActive (ru : WiredTigerRecoveryUnit) : Bool := ru.state == .active

/-- The calls of a run; `now` is the clock reading of the calls that take one. -/
inductive Call
  | beginTransaction (now : Nat)
  | registerChange (change : Nat)
  | commit (now : Nat)
  | rollback
  | setCommitTimestamp (ts : Nat)

/-- One call. -/
def exec (env : Outcomes) (w : World) : Call → World × Except String Unit
  | .beginTransaction now => beginTransaction w now
  | .registerChange change => registerChange w change
  | .commit now => commit env w now
  | .rollback => rollback env w
  | .setCommitTimestamp ts => setCommitTimestamp w ts

/-- A run, one call after the other. -/
def run (env : Outcomes) (w : World) (calls : List Call) : World :=
  calls.foldl (fun w call => (exec env w call).1) w

/-! ### What each call does to the state -/

theorem beginTransaction_ok {w w' : World} {now : Nat} {u : Unit}
    (h : beginTransaction w now = (w', .ok u)) : w'.ru.state = .active := by
  unfold beginTransaction at h
  split_ifs at h <;> cases h
  rfl

theorem beginTransaction_error {w w' : World} {now : Nat} {e : String}
    (h : beginTransaction w now = (w', .error e)) : w' = w := by
  unfold beginTransaction at h
  split_ifs at h <;> cases h
  rfl

theorem commit_ok {env : Outcomes} {w w' : World} {now : Nat} {u : Unit}
    (h : commit env w now = (w', .ok u)) : w'.ru.state = .committed := by
  unfold commit at h
  split_ifs at h <;> (try split at h) <;> cases h
  all_goals rfl

theorem commit_error {env : Outcomes} {w w' : World} {now : Nat} {e : String}
    (h : commit env w now = (w', .error e)) : w' = w ∨ w'.ru.state = .aborted := by
  unfold commit at h
  split_ifs at h <;> (try split at h) <;> cases h
  exacts [.inl rfl, .inr rfl, .inr rfl]

theorem rollback_ok {env : Outcomes} {w w' : World} {u : Unit}
    (h : rollback env w = (w', .ok u)) : w'.ru.state = .aborted := by
  unfold rollback at h
  split_ifs at h <;> (try split at h) <;> cases h
  rfl

theorem commit_active {env : Outcomes} {w w' : World} {now : Nat} {u : Unit}
    (h : commit env w now = (w', .ok u)) : w.ru.state = .active := by
  by_contra hs
  rw [commit, if_pos hs] at h
  cases h

theorem rollback_active {env : Outcomes} {w w' : World} {u : Unit}
    (h : rollback env w = (w', .ok u)) : w.ru.state = .active := by
  by_contra hs
  rw [rollback, if_pos hs] at h
  cases h

/-- A failed `Rollback` leaves the unit as it was, whatever actions it ran. -/
theorem rollback_error {env : Outcomes} {w w' : World} {e : String}
    (h : rollback env w = (w', .error e)) : w'.ru = w.ru := by
  unfold rollback at h
  split_ifs at h <;> (try split at h) <;> cases h
  all_goals rfl

@[simp] theorem registerChange_state (w : World) (change : Nat) :
    (registerChange w change).1.ru.state = w.ru.state := by
  unfold registerChange; split_ifs <;> rfl

/-! ### Commit and rollback run the changes of the transaction -/

/-- A run, with the result of each call. -/
def trace (env : Outcomes) (w : World) : List Call → List (Call × Except String Unit)
  | [] => []
  | call :: calls => (call, (exec env w call).2) :: trace env (exec env w call).1 calls

/-- One call of a trace against the changes registered since the last `BeginTransaction`
that succeeded: such a `BeginTransaction` starts over, a `RegisterChange` that succeeded
appends its change. -/
def pendingStep (acc : List Nat) : Call × Except String Unit → List Nat
  | (.beginTransaction _, .ok ()) => []
  | (.registerChange change, .ok ()) => acc ++ [change]
  | _ => acc

/-- The changes registered, in order, since the last `BeginTransaction` of a trace that
succeeded. -/
def pendingChanges (tr : List (Call × Except String Unit)) : List Nat := tr.foldl pendingStep []

/-- The change a call of a trace registered: that of a `RegisterChange` that succeeded. -/
def registeredBy : Call × Except String Unit → Option Nat
  | (.registerChange change, .ok ()) => some change
  | _ => none

/-- A loop that meets no failing action invokes them all, in order. -/
theorem invokeAll_none {env : Outcomes} {action : Action} :
    ∀ {log log' : List Invocation} {cs : List Nat}, invokeAll env action log cs = (log', none) →
      log' = log ++ cs.map (Invocation.mk · action)
  | log, log', [], h => by simpa [invokeAll, eq_comm] using h
  | log, log', c :: cs, h => by
    unfold invokeAll at h
    split at h
    · cases h
    · rw [invokeAll_none h]; simp

theorem commit_ok_log {env : Outcomes} {w w' : World} {now : Nat} {u : Unit}
    (h : commit env w now = (w', .ok u)) :
    w'.log = w.log ++ w.ru.changes.map (Invocation.mk · .commit) := by
  unfold commit at h
  split_ifs at h <;> (try split at h) <;> cases h <;> exact invokeAll_none ‹_›

theorem rollback_ok_log {env : Outcomes} {w w' : World} {u : Unit}
    (h : rollback env w = (w', .ok u)) :
    w'.log = w.log ++ w.ru.changes.reverse.map (Invocation.mk · .rollback) := by
  unfold rollback at h
  split_ifs at h <;> (try split at h) <;> cases h
  exact invokeAll_none ‹_›

/-- One call keeps the change log of an active unit equal to the changes registered since
the last `BeginTransaction` that succeeded. -/
theorem exec_changes_pending {env : Outcomes} {w : World} {acc : List Nat}
    (h : w.ru.state = .active → w.ru.changes = acc) (call : Call) :
    (exec env w call).1.ru.state = .active →
      (exec env w call).1.ru.changes = pendingStep acc (call, (exec env w call).2) := by
  cases call with
  | beginTransaction now =>
    simp only [exec, beginTransaction]
    split_ifs with hs
    · exact fun _ => h hs
    · exact fun _ => rfl
  | registerChange change =>
    simp only [exec, registerChange]
    split_ifs with hs
    · exact fun h' => absurd h' hs
    · exact fun _ => by rw [h (not_not.mp hs)]; rfl
  | commit now =>
    rcases hr : commit env w now with ⟨w', _ | u⟩
    · rcases commit_error hr with rfl | hab
      · simpa [exec, hr, pendingStep] using h
      · simp [exec, hr, hab]
    · simp [exec, hr, commit_ok hr]
  | rollback =>
    rcases hr : rollback env w with ⟨w', _ | u⟩
    · simpa [exec, hr, pendingStep, rollback_error hr] using h
    · simp [exec, hr, rollback_ok hr]
  | setCommitTimestamp ts =>
    simp only [exec, setCommitTimestamp]
    split_ifs
    · exact h
    · exact h

theorem run_changes_pending (env : Outcomes) :
    ∀ (calls : List Call) {w : World} {acc : List Nat}, (w.ru.state = .active → w.ru.changes = acc) →
      (run env w calls).ru.state = .active →
        (run env w calls).ru.changes = (trace env w calls).foldl pendingStep acc
  | [], _, _, h => h
  | call :: calls, _, _, h => run_changes_pending env calls (exec_changes_pending h call)

/-- **Commit and rollback run the transaction's changes.**  After every run of a new
recovery unit, a `Commit` that returns nil invokes the commit actions of the changes
registered since the last `BeginTransaction` that succeeded, in registration order, each
once and nothing else, and leaves the unit `Committed`; a `Rollback` that returns nil
invokes their rollback actions in reverse order and leaves it `Aborted`. -/
theorem commit_rollback_invoke_pending (env : Outcomes) (calls : List Call) :
    (∀ now w' u, commit env (run env ⟨newRecoveryUnit, []⟩ calls) now = (w', .ok u) →
      w'.log = (run env ⟨newRecoveryUnit, []⟩ calls).log ++
        (pendingChanges (trace env ⟨newRecoveryUnit, []⟩ calls)).map (Invocation.mk · .commit) ∧
      w'.ru.state = .committed) ∧
    (∀ w' u, rollback env (run env ⟨newRecoveryUnit, []⟩ calls) = (w', .ok u) →
      w'.log = (run env ⟨newRecoveryUnit, []⟩ calls).log ++
        (pendingChanges (trace env ⟨newRecoveryUnit, []⟩ calls)).reverse.map
          (Invocation.mk · .rollback) ∧
      w'.ru.state = .aborted) := by
  have hrun := @run_changes_pending env calls ⟨newRecoveryUnit, []⟩ [] (fun h => nomatch h)
  refine ⟨fun now w' u h => ⟨?_, commit_ok h⟩, fun w' u h => ⟨?_, rollback_ok h⟩⟩
  · rw [commit_ok_log h, hrun (commit_active h)]; rfl
  · rw [rollback_ok_log h, hrun (rollback_active h)]; rfl

/-- Every action succeeds. -/
def allSucceed : Outcomes := fun _ _ => none

/-- A transaction of three changes. -/
def threeChanges : List Call := [.beginTransaction 1, .registerChange 1, .registerChange 2, .registerChange 3]

theorem threeChanges_commit_rollback :
    (commit allSucceed (run allSucceed ⟨newRecoveryUnit, []⟩ threeChanges) 5).1.log =
      [⟨1, .commit⟩, ⟨2, .commit⟩, ⟨3, .commit⟩] ∧
    (rollback allSucceed (run allSucceed ⟨newRecoveryUnit, []⟩ threeChanges)).2 = .ok () ∧
    (rollback allSucceed (run allSucceed ⟨newRecoveryUnit, []⟩ threeChanges)).1.log =
      [⟨3, .rollback⟩, ⟨2, .rollback⟩, ⟨1, .rollback⟩] :=
  ⟨((commit_rollback_invoke_pending allSucceed threeChanges).1 5 _ () rfl).1, rfl,
    ((commit_rollback_invoke_pending allSucceed threeChanges).2 _ () rfl).1⟩

/-! ### The commit timestamp across transactions

`Commit` resolves the commit timestamp only while it is zero, and `BeginTransaction` resets
the state, the read timestamp and the change log but not the commit timestamp: once one
transaction has resolved it, only `SetCommitTimestamp` changes it again. -/

/-- Whether a call is a `SetCommitTimestamp`. -/
def Call.setsCommitTimestamp : Call → Bool
  | .setCommitTimestamp _ => true
  | _ => false

/-- Every call but `SetCommitTimestamp` keeps a commit timestamp that is not zero. -/
theorem exec_commitTimestamp (env : Outcomes) {w : World} (hw : w.ru.commitTimestamp ≠ 0)
    {call : Call} (hc : call.setsCommitTimestamp = false) :
    (exec env w call).1.ru.commitTimestamp = w.ru.commitTimestamp := by
  cases call with
  | beginTransaction now => simp only [exec, beginTransaction]; split_ifs <;> rfl
  | registerChange change => simp only [exec, registerChange]; split_ifs <;> rfl
  | commit now =>
    simp only [exec, commit, if_neg hw]
    split_ifs
    · rfl
    · split <;> rfl
  | rollback =>
    simp only [exec, rollback]
    split_ifs
    · rfl
    · split <;> rfl
  | setCommitTimestamp ts => cases hc

theorem run_commitTimestamp (env : Outcomes) :
    ∀ (calls : List Call) {w : World}, w.ru.commitTimestamp ≠ 0 →
      (∀ call ∈ calls, call.setsCommitTimestamp = false) →
        (run env w calls).ru.commitTimestamp = w.ru.commitTimestamp
  | [], _, _, _ => rfl
  | call :: calls, w, hw, hc => by
    have hstep := exec_commitTimestamp env hw (hc call (List.mem_cons_self _ _))
    exact (run_commitTimestamp env calls (hstep ▸ hw)
      fun c hm => hc c (List.mem_cons_of_mem _ hm)).trans hstep

/-- One unit, two transactions, no `SetCommitTimestamp`. -/
def reusedUnit : List Call := [.beginTransaction 1, .commit 2, .beginTransaction 3, .commit 4]

/-- **The commit timestamp outlives its transaction.**  Once a unit holds a commit
timestamp, every run without `SetCommitTimestamp` keeps it, whatever the clock reads and
however many transactions begin and commit; so the second `Commit` of `reusedUnit`
succeeds with the first transaction's timestamp `2`, not its own clock reading `4`. -/
theorem commit_timestamp_outlives_transaction :
    (∀ (env : Outcomes) (w : World) (calls : List Call), w.ru.commitTimestamp ≠ 0 →
      (∀ call ∈ calls, call.setsCommitTimestamp = false) →
        (run env w calls).ru.commitTimestamp = w.ru.commitTimestamp) ∧
    (run allSucceed ⟨newRecoveryUnit, []⟩ reusedUnit).ru =
      { state := .committed, readTimestamp := 3, commitTimestamp := 2, changes := [] } :=
  ⟨fun env _ calls hw hc => run_commitTimestamp env calls hw hc, rfl⟩

/-! ### Each action at most once, while rollbacks succeed -/

/-- Every rollback action succeeds, whatever ran before. -/
def RollbacksSucceed (env : Outcomes) : Prop := ∀ log c, env log ⟨c, .rollback⟩ = none

theorem invokeAll_log (env : Outcomes) (action : Action) :
    ∀ log cs, ∃ done, (invokeAll env action log cs).1 = log ++ done.map (Invocation.mk · action) ∧ done <+: cs
  | log, [] => ⟨[], by simp [invokeAll]⟩
  | log, c :: cs => by
    unfold invokeAll
    split
    · exact ⟨[c], by simp, by simp⟩
    · obtain ⟨done, h, hp⟩ := invokeAll_log env action (log ++ [⟨c, action⟩]) cs
      exact ⟨c :: done, by simp [h], List.cons_prefix_cons.mpr ⟨rfl, hp⟩⟩

theorem invokeAll_rollback_ok {env : Outcomes} (h : RollbacksSucceed env) :
    ∀ log cs, invokeAll env .rollback log cs = (log ++ cs.map (Invocation.mk · .rollback), none)
  | log, [] => by simp [invokeAll]
  | log, c :: cs => by simp [invokeAll, h log c, invokeAll_rollback_ok h _ cs]

/-- The run invariant behind `run_invokes_once`, given the changes `reg` registered so far:
no change in the log twice, the changes of an active transaction not in the log yet, and
everything in the log or the change log registered. -/
structure OnceInv (w : World) (reg : List Nat) : Prop where
  log_nodup : (w.log.map Invocation.change).Nodup
  changes_nodup : w.ru.state = .active → w.ru.changes.Nodup
  fresh : w.ru.state = .active → ∀ c ∈ w.ru.changes, c ∉ w.log.map Invocation.change
  log_reg : ∀ c ∈ w.log.map Invocation.change, c ∈ reg
  changes_reg : ∀ c ∈ w.ru.changes, c ∈ reg

theorem log_append_nodup {log : List Invocation} {done : List Nat} {a : Action}
    (hlog : (log.map Invocation.change).Nodup) (hdone : done.Nodup)
    (hfresh : ∀ c ∈ done, c ∉ log.map Invocation.change) :
    ((log ++ done.map (Invocation.mk · a)).map Invocation.change).Nodup := by
  rw [List.map_append, List.map_map]
  exact List.nodup_append.mpr ⟨hlog, by simpa [Function.comp_def] using hdone,
    fun c h₁ h₂ => hfresh c (by simpa [Function.comp_def] using h₂) h₁⟩

/-- A call that leaves the unit alone keeps the invariant, for any larger `reg`. -/
theorem OnceInv.mono {w : World} {reg reg' : List Nat} (h : OnceInv w reg) (hr : reg ⊆ reg') :
    OnceInv w reg' :=
  ⟨h.log_nodup, h.changes_nodup, h.fresh, fun c hc => hr (h.log_reg c hc),
    fun c hc => hr (h.changes_reg c hc)⟩

/-- `Commit` of an active unit invokes the commit actions of a prefix of its changes, and
leaves it inactive with no other changes. -/
theorem commit_of_active (env : Outcomes) {w : World} (now : Nat) (hs : w.ru.state = .active) :
    ∃ done, done <+: w.ru.changes ∧
      (commit env w now).1.log = w.log ++ done.map (Invocation.mk · .commit) ∧
      (commit env w now).1.ru.state ≠ .active ∧ (commit env w now).1.ru.changes ⊆ w.ru.changes := by
  obtain ⟨done, hlog, hpre⟩ := invokeAll_log env .commit w.log w.ru.changes
  refine ⟨done, hpre, ?_⟩
  unfold commit
  rw [if_neg (not_not_intro hs)]
  rcases hr : invokeAll env .commit w.log w.ru.changes with ⟨log, _ | err⟩ <;>
    simp only [hr] at hlog <;> split_ifs <;> simp [hlog]

/-- A call that runs the actions of some of the transaction's changes, each once, and leaves
the unit inactive keeps the invariant. -/
theorem OnceInv.invoke {w w' : World} {reg done : List Nat} {a : Action} (h : OnceInv w reg)
    (hs : w.ru.state = .active) (hnd : done.Nodup) (hsub : done ⊆ w.ru.changes)
    (hlog : w'.log = w.log ++ done.map (Invocation.mk · a)) (hst : w'.ru.state ≠ .active)
    (hch : w'.ru.changes ⊆ w.ru.changes) : OnceInv w' reg := by
  refine ⟨?_, fun h' => absurd h' hst, fun h' => absurd h' hst, fun c hc => ?_,
    fun c hc => h.changes_reg c (hch hc)⟩
  · rw [hlog]
    exact log_append_nodup h.log_nodup hnd fun c hc => h.fresh hs c (hsub hc)
  · simp only [hlog, List.map_append, List.map_map, List.mem_append] at hc
    rcases hc with hc | hc
    · exact h.log_reg c hc
    · exact h.changes_reg c (hsub (by simpa [Function.comp_def] using hc))

theorem OnceInv.step {env : Outcomes} (henv : RollbacksSucceed env) {w : World} {reg : List Nat}
    (h : OnceInv w reg) (call : Call)
    (hnew : ∀ c, registeredBy (call, (exec env w call).2) = some c → c ∉ reg) :
    OnceInv (exec env w call).1 (reg ++ (registeredBy (call, (exec env w call).2)).toList) := by
  cases call with
  | beginTransaction now =>
    simp only [registeredBy, Option.toList_none, List.append_nil]
    unfold WiredTigerRecoveryUnit.exec beginTransaction
    split_ifs
    · exact h
    · exact ⟨h.log_nodup, fun _ => List.nodup_nil, fun _ _ hc => absurd hc (List.not_mem_nil _),
        h.log_reg, fun _ hc => absurd hc (List.not_mem_nil _)⟩
  | registerChange c =>
    dsimp only [WiredTigerRecoveryUnit.exec] at hnew ⊢
    unfold registerChange at hnew ⊢
    split_ifs at hnew ⊢ with hs
    · simpa [registeredBy] using h
    · have hc := hnew c rfl
      simp only [ne_eq, not_not] at hs
      refine ⟨h.log_nodup, fun _ => ?_, fun _ c' hc' => ?_, ?_, ?_⟩ <;>
        simp only [registeredBy, Option.toList_some, List.mem_append, List.mem_singleton] at *
      · exact List.nodup_append.mpr ⟨h.changes_nodup hs, List.nodup_singleton c,
          fun x hx hx' => hc (by rw [List.mem_singleton.mp hx'] at hx; exact h.changes_reg _ hx)⟩
      · rcases hc' with hc' | rfl
        · exact h.fresh hs c' hc'
        · exact fun hl => hc (h.log_reg _ hl)
      · exact fun x hx => .inl (h.log_reg x hx)
      · rintro x (hx | rfl)
        exacts [.inl (h.changes_reg x hx), .inr rfl]
  | commit now =>
    simp only [registeredBy, Option.toList_none, List.append_nil, WiredTigerRecoveryUnit.exec]
    by_cases hs : w.ru.state = .active
    · obtain ⟨done, hpre, hlog, hst, hch⟩ := commit_of_active env now hs
      exact h.invoke hs ((h.changes_nodup hs).sublist hpre.sublist) hpre.subset hlog hst hch
    · simpa [commit, hs] using h
  | rollback =>
    simp only [registeredBy, Option.toList_none, List.append_nil, WiredTigerRecoveryUnit.exec]
    by_cases hs : w.ru.state = .active
    · rw [rollback, if_neg (not_not_intro hs), invokeAll_rollback_ok henv]
      exact h.invoke hs (List.nodup_reverse.mpr (h.changes_nodup hs))
        (fun c hc => List.mem_reverse.mp hc) rfl (by simp) (by simp)
    · simpa [rollback, hs] using h
  | setCommitTimestamp ts =>
    simp only [registeredBy, Option.toList_none, List.append_nil, WiredTigerRecoveryUnit.exec]
    unfold setCommitTimestamp
    split_ifs
    · exact h
    · exact ⟨h.log_nodup, h.changes_nodup, h.fresh, h.log_reg, h.changes_reg⟩

theorem OnceInv.run {env : Outcomes} (henv : RollbacksSucceed env) :
    ∀ (calls : List Call) (w : World) (reg : List Nat), OnceInv w reg →
      (∀ c ∈ (trace env w calls).filterMap registeredBy, c ∉ reg) →
      ((trace env w calls).filterMap registeredBy).Nodup →
      OnceInv (run env w calls) (reg ++ (trace env w calls).filterMap registeredBy)
  | [], w, reg, h, _, _ => by simpa [run, trace] using h
  | call :: calls, w, reg, h, hnew, hnd => by
    have h₁ := h.step henv call fun c hc => hnew c (by simp [trace, List.filterMap_cons, hc])
    cases hr : registeredBy (call, (exec env w call).2) <;>
      simp only [trace, List.filterMap_cons, hr, List.nodup_cons, List.mem_cons] at hnew hnd ⊢ <;>
      rw [hr] at h₁
    · simpa [run] using OnceInv.run henv calls _ reg (by simpa using h₁) hnew hnd
    · rename_i c
      have := OnceInv.run henv calls _ (reg ++ [c]) (by simpa using h₁)
        (fun x hx hx' => ?_) hnd.2
      · simpa [run] using this
      · simp only [List.mem_append, List.mem_singleton] at hx'
        rcases hx' with hx' | rfl
        · exact hnew x (.inr hx) hx'
        · exact hnd.1 hx

/-- **Each action at most once.**  While no rollback action fails, a run in which no change
is registered twice by a `RegisterChange` that succeeds invokes, for each change, at most
one of its actions, at most once.  A `RegisterChange` that fails, outside a transaction,
registers nothing and may name any change. -/
theorem run_invokes_once {env : Outcomes} (henv : RollbacksSucceed env) (calls : List Call)
    (hreg : ((trace env ⟨newRecoveryUnit, []⟩ calls).filterMap registeredBy).Nodup) (c : Nat) :
    ((run env ⟨newRecoveryUnit, []⟩ calls).log.map Invocation.change).count c ≤ 1 :=
  List.nodup_iff_count_le_one.mp (OnceInv.run henv calls _ []
    ⟨by simp, by simp [newRecoveryUnit], by simp, by simp, by simp [newRecoveryUnit]⟩
    (by simp) hreg).log_nodup c

/-- Change `1` registered outside a transaction, which fails, then registered again in
one and committed. -/
def retriedChange : List Call := .registerChange 1 :: threeChanges ++ [.commit 5]

theorem retriedChange_committed_once :
    RollbacksSucceed allSucceed ∧
      ((trace allSucceed ⟨newRecoveryUnit, []⟩ retriedChange).filterMap registeredBy).Nodup ∧
      ((run allSucceed ⟨newRecoveryUnit, []⟩ retriedChange).log.map Invocation.change).count 1 ≤ 1 :=
  ⟨fun _ _ => rfl, by decide, run_invokes_once (fun _ _ => rfl) _ (by decide) 1⟩

/-- Every rollback action fails. -/
def rollbacksFail : Outcomes := fun _ inv => if inv.action = .rollback then some "rollback failed" else none

/-- A failed `Rollback` leaves the unit active with its change log: a later `Commit` invokes
the commit action of the change whose rollback already ran, and a later `Rollback` invokes
the rollback action a second time. -/
theorem rollback_failure_reruns :
    (run rollbacksFail ⟨newRecoveryUnit, []⟩
        [.beginTransaction 1, .registerChange 0, .rollback, .commit 2]).log =
        [⟨0, .rollback⟩, ⟨0, .commit⟩] ∧
      (run rollbacksFail ⟨newRecoveryUnit, []⟩
        [.beginTransaction 1, .registerChange 0, .rollback, .rollback]).log =
        [⟨0, .rollback⟩, ⟨0, .rollback⟩] := by
  decide

end WiredTigerRecoveryUnit

end XMongoStorage
