/-
The engine session (`session.go`): two flags, `active` and `inTransaction`, over a
recovery unit of its own.

`BeginTransaction`, `CommitTransaction` and `RollbackTransaction` check the flags, call the
recovery unit and set `inTransaction` only when that call succeeds; `End` rolls an open
transaction back first.  A commit whose change fails leaves the unit `Aborted` but
returns before `inTransaction` is cleared.

* `run_inv` — over every run, `InTransaction()` implies `IsActive()`, and an active
  recovery unit implies `InTransaction()`;
* `commit_failure_desyncs` — the converse of the second fails: after a failing commit the
  session is in a transaction while its recovery unit is `Aborted`.

Design notes: the session id only appears in messages; the creation time and the engine
are left out.  `End` is `endSession`, as `end` is a keyword.
-/
import XMongoStorage.RecoveryUnit

namespace XMongoStorage

open WiredTigerRecoveryUnit

/-- `WiredTigerSession` without its lock, creation time and engine; the recovery unit and
the log of change actions are in `world`. -/
structure WiredTigerSession where
  sessionId : String
  active : Bool
  inTransaction : Bool
  world : World

namespace WiredTigerSession

/-- `NewEngineSession`. -/
def newEngineSession (sessionId : String) : WiredTigerSession :=
  { sessionId, active := false, inTransaction := false, world := ⟨newRecoveryUnit, []⟩ }

/-- `Begin`. -/
def begin (s : WiredTigerSession) : WiredTigerSession × Except String Unit :=
  if s.active then (s, .error ("会话 " ++ s.sessionId ++ " 已经处于活动状态"))
  else ({ s with active := true }, .ok ())

/-- `End`: an open transaction is rolled back first. -/
def endSession (env : Outcomes) (s : WiredTigerSession) : WiredTigerSession × Except String Unit :=
  if !s.active then (s, .ok ())
  else if s.inTransaction then
    match rollback env s.world with
    | (world, .error e) => ({ s with world }, .error ("结束会话时回滚事务失败: " ++ e))
    | (world, .ok ()) => ({ s with world, inTransaction := false, active := false }, .ok ())
  else ({ s with active := false }, .ok ())

/-- `BeginTransaction`. -/
def beginTransaction (s : WiredTigerSession) (now : Nat) : WiredTigerSession × Except String Unit :=
  if !s.active then (s, .error ("会话 " ++ s.sessionId ++ " 未激活"))
  else if s.inTransaction then (s, .error ("会话 " ++ s.sessionId ++ " 已经在事务中"))
  else
    match WiredTigerRecoveryUnit.beginTransaction s.world now with
    | (world, .error e) => ({ s with world }, .error e)
    | (world, .ok ()) => ({ s with world, inTransaction := true }, .ok ())

/-- The tail of `CommitTransaction` and `RollbackTransaction`: check for a transaction, call
the recovery unit, and leave the transaction only if the call succeeds. -/
def finishTransaction (unitCall : World → World × Except String Unit) (s : WiredTigerSession) :
    WiredTigerSession × Except String Unit :=
  if !s.inTransaction then (s, .error ("会话 " ++ s.sessionId ++ " 没有活动的事务"))
  else
    match unitCall s.world with
    | (world, .error e) => ({ s with world }, .error e)
    | (world, .ok ()) => ({ s with world, inTransaction := false }, .ok ())

/-- `CommitTransaction`. -/
def commitTransaction (env : Outcomes) (s : WiredTigerSession) (now : Nat) :
    WiredTigerSession × Except String Unit :=
  finishTransaction (fun w => commit env w now) s

/-- `RollbackTransaction`. -/
def rollbackTransaction (env : Outcomes) (s : WiredTigerSession) :
    WiredTigerSession × Except String Unit :=
  finishTransaction (rollback env) s

/-- `RegisterChange` on the session's recovery unit. -/
def registerChange (s : WiredTigerSession) (change : Nat) : WiredTigerSession × Except String Unit :=
  let r := WiredTigerRecoveryUnit.registerChange s.world change
  ({ s with world := r.1 }, r.2)

/-- The calls of a run of a session. -/
inductive Call
  | begin
  | endSession
  | beginTransaction (now : Nat)
  | commitTransaction (now : Nat)
  | rollbackTransaction
  | registerChange (change : Nat)

/-- One call. -/
def exec (env : Outcomes) (s : WiredTigerSession) : Call → WiredTigerSession × Except String Unit
  | .begin => begin s
  | .endSession => endSession env s
  | .beginTransaction now => beginTransaction s now
  | .commitTransaction now => commitTransaction env s now
  | .rollbackTransaction => rollbackTransaction env s
  | .registerChange change => registerChange s change

/-- A run, one call after the other. -/
def run (env : Outcomes) (s : WiredTigerSession) (calls : List Call) : WiredTigerSession :=
  calls.foldl (fun s call => (exec env s call).1) s

/-- The flags against the recovery unit: a transaction only in an active session, and an
active recovery unit only inside a transaction. -/
structure Inv (s : WiredTigerSession) : Prop where
  active_of_inTransaction : s.inTransaction = true → s.active = true
  inTransaction_of_unit : s.world.ru.state = .active → s.inTransaction = true

/-- The shared tail of `CommitTransaction` and `RollbackTransaction` keeps the invariant when
the recovery unit call, once it succeeds, leaves the unit inactive. -/
theorem finishTransaction_inv {unitCall : World → World × Except String Unit}
    (hok : ∀ w w' u, unitCall w = (w', .ok u) → w'.ru.state ≠ .active) {s : WiredTigerSession}
    (h : Inv s) : Inv (finishTransaction unitCall s).1 := by
  unfold finishTransaction
  split_ifs with hin
  · exact h
  · simp only [Bool.not_eq_true', Bool.not_eq_false] at hin
    rcases hr : unitCall s.world with ⟨w', _ | _⟩ <;> simp only [hr]
    · exact ⟨fun _ => h.active_of_inTransaction hin, fun _ => hin⟩
    · exact ⟨by simp, fun hs => absurd hs (hok _ _ _ hr)⟩

theorem Inv.exec {env : Outcomes} {s : WiredTigerSession} (h : Inv s) :
    ∀ call, Inv (WiredTigerSession.exec env s call).1
  | .begin => by
    dsimp only [WiredTigerSession.exec]
    unfold begin
    split_ifs
    · exact h
    · exact ⟨fun _ => rfl, h.inTransaction_of_unit⟩
  | .endSession => by
    dsimp only [WiredTigerSession.exec]
    unfold endSession
    split_ifs with ha hin
    · exact h
    · rcases hr : rollback env s.world with ⟨w', _ | _⟩ <;> simp only [hr]
      · exact ⟨h.active_of_inTransaction, fun hs => h.inTransaction_of_unit (by
          rwa [← rollback_error hr])⟩
      · exact ⟨by simp, fun hs => by simp [rollback_ok hr] at hs⟩
    · exact ⟨by simpa using hin, fun hs => absurd (h.inTransaction_of_unit hs) hin⟩
  | .beginTransaction now => by
    dsimp only [WiredTigerSession.exec]
    unfold beginTransaction
    split_ifs with ha
    · exact h
    · exact h
    · rcases hr : WiredTigerRecoveryUnit.beginTransaction s.world now with ⟨w', _ | _⟩ <;>
        simp only [hr]
      · rw [beginTransaction_error hr]
        exact h
      · exact ⟨fun _ => by simpa using ha, fun _ => rfl⟩
  | .commitTransaction now =>
    finishTransaction_inv (fun _ _ _ hr => by simp [commit_ok hr]) h
  | .rollbackTransaction =>
    finishTransaction_inv (fun _ _ _ hr => by simp [rollback_ok hr]) h
  | .registerChange change =>
    ⟨h.active_of_inTransaction, fun hs => h.inTransaction_of_unit (by
      simpa [WiredTigerSession.exec, WiredTigerSession.registerChange] using hs)⟩

theorem Inv.run {env : Outcomes} : ∀ (calls : List Call) {s : WiredTigerSession}, Inv s →
    Inv (WiredTigerSession.run env s calls)
  | [], _, h => h
  | call :: calls, _, h => Inv.run calls (h.exec call)

/-- **Session invariant.**  Over every run of a new session, `InTransaction()` implies
`IsActive()`, and an active recovery unit implies `InTransaction()`. -/
theorem run_inv (env : Outcomes) (sessionId : String) (calls : List Call) :
    Inv (run env (newEngineSession sessionId) calls) :=
  Inv.run calls ⟨by simp [newEngineSession], by simp [newEngineSession, newRecoveryUnit]⟩

/-- Every commit action fails. -/
def commitsFail : Outcomes := fun _ inv => if inv.action = .commit then some "commit failed" else none

/-- After a `CommitTransaction` whose change fails, the session is still in a transaction
while its recovery unit is `Aborted`. -/
theorem commit_failure_desyncs :
    (run commitsFail (newEngineSession "s")
        [.begin, .beginTransaction 1, .registerChange 0, .commitTransaction 2]).inTransaction = true ∧
      isActive (run commitsFail (newEngineSession "s")
        [.begin, .beginTransaction 1, .registerChange 0, .commitTransaction 2]).world.ru = false := by
  decide

end WiredTigerSession

end XMongoStorage
