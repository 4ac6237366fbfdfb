import FastPg.Lib.Transition
import FastPg.Pgcore.Outcome

/-! # The reported transaction status

Every query is answered with a transaction status. The wire layer does not ask
the backend for it: it keeps a status of its own and updates it from the command
tags and errors it forwards. Here that status runs beside the backend, and each
answer is recorded together with the state of the block when it is sent.
-/

namespace FastPg.Wire

open Transition
open Pgcore (Backend Sql)

inductive TransactionStatus where
  | idle
  | transaction
  | error
  deriving DecidableEq, Repr

namespace TransactionStatus

def toInTransactionState : TransactionStatus → TransactionStatus
  | .idle => .transaction
  | status => status

def toIdleState : TransactionStatus → TransactionStatus := fun _ => .idle

def toErrorState : TransactionStatus → TransactionStatus
  | .transaction => .error
  | status => status

/-- What the state of the transaction block calls for. -/
def ofSql (sql : Sql) : TransactionStatus :=
  match sql.block with
  | .explicit => if sql.failed then .error else .transaction
  | _ => .idle

end TransactionStatus

open TransactionStatus (ofSql)

/-- The command tags that matter to the status, and all others. -/
inductive CommandTag where
  | begin
  | commit
  | rollback
  | savepoint
  | release
  | other
  deriving DecidableEq, Repr

def applyCommandTransactionStatus (tag : CommandTag) (status : TransactionStatus) :
    TransactionStatus :=
  match tag with
  | .begin => status.toInTransactionState
  | .commit | .rollback => status.toIdleState
  | .savepoint | .release | .other => status

/-- The tag `fastpg_pgcore_execute_transaction_stmt` leaves for a statement that
    is executed: a `COMMIT` that has nothing to commit is a `ROLLBACK`, and so is
    a `ROLLBACK TO`. -/
def commandTag (sql : Sql) : Pgcore.Statement → CommandTag
  | .begin .. => .begin
  | .commit .. =>
    match sql.block with
    | .explicit => if sql.failed then .rollback else .commit
    | .implicit => .commit
    | _ => .rollback
  | .rollback _ | .rollbackTo _ => .rollback
  | .savepoint _ => .savepoint
  | .release _ => .release
  | .change .. | .copy .. => .other

/-! ## Answers -/

/-- What comes back for a statement outside a `COPY`. -/
inductive Execution where
  | command (tag : CommandTag)
  | error
  deriving DecidableEq, Repr

/-- `feed_simple_execution` -/
def feedSimpleExecution (status : TransactionStatus) (executions : List Execution) :
    TransactionStatus :=
  executions.foldl (fun status execution => match execution with
    | .command tag => applyCommandTransactionStatus tag status
    | .error => status.toErrorState) status

/-- The state a statement is executed in. -/
def entered (several : Bool) (backend : Backend) : Backend :=
  if several then backend.start.beginImplicit else backend.start

/-- What a query without `COPY` comes back with: its completed statements, and
    the error that ended it. -/
def executions (several : Bool) : Backend → List Pgcore.Statement → List Execution
  | _, [] => []
  | backend, statement :: rest =>
    match Backend.machine.attempt several backend statement with
    | (next, true) =>
      .command (commandTag (entered several backend).sql statement) ::
        executions several
          (if statement.isTransaction then Backend.machine.finish next else next) rest
    | (_, false) => [.error]

/-- How far a query with a `COPY` in it has come. -/
inductive Conversation where
  /-- No data was asked for yet; the status is a local one. -/
  | answered (status : TransactionStatus)
  /-- A `COPY` was completed; later tags and errors are not looked at. -/
  | copied
  /-- A `COPY` was asked for and failed or was cancelled. -/
  | copyLost
  deriving DecidableEq, Repr

namespace Conversation

def feed (conversation : Conversation) (execution : Execution) : Conversation :=
  match conversation with
  | .answered status => .answered (feedSimpleExecution status [execution])
  | conversation => conversation

end Conversation

/-- The statements of a split query, one at a time: `execute_simple_message` up
    to the first `COPY`, `drain_pending_simple` after it. -/
def converse : Backend → Conversation → List Pgcore.Statement → Conversation
  | _, conversation, [] => conversation
  | backend, conversation, .copy rows ending :: rest =>
    if (Backend.machine.simple backend [.copy rows ending]).2 then
      match { backend with pending := rest }.copy rows ending with
      | (backend, true) => converse { backend with pending := [] } .copied rest
      | (_, false) => .copyLost
    else conversation.feed .error
  | backend, conversation, statement :: rest =>
    match Backend.machine.simple backend [statement] with
    | (next, true) =>
      converse next
        (conversation.feed (.command (commandTag (entered false backend).sql statement))) rest
    | (_, false) => conversation.feed .error

/-- A query and the `COPY` messages that follow it. -/
def answer (backend : Backend) (status : TransactionStatus) (statements : List Pgcore.Statement) :
    Conversation :=
  match statements with
  | [.begin true false] => .answered (applyCommandTransactionStatus .begin status)
  | [.copy rows ending] =>
    converse backend (.answered status) (.copy rows ending :: backend.pending)
  | statements =>
    if statements.any Pgcore.Statement.isCopy then
      converse backend (.answered status) statements
    else .answered (feedSimpleExecution status (executions (1 < statements.length) backend statements))

/-- The two ends of a connection. -/
structure Frontend where
  backend : Backend
  /-- The `transaction_status` of the socket. -/
  status : TransactionStatus
  /-- The `ReadyForQuery` messages: the status each carried, and what the
      transaction block was when it was sent. -/
  ready : List (TransactionStatus × TransactionStatus)
  deriving DecidableEq, Repr

namespace Frontend

def initial : Frontend := ⟨.initial, .idle, []⟩

/-- The status of the socket after an answer, and the one that is sent: the end
    of a `COPY` always sends idle, and a lost one goes through
    `process_unix_error`. -/
def settle (frontend : Frontend) : Conversation → TransactionStatus × TransactionStatus
  | .answered status => (status, status)
  | .copied => (frontend.status, .idle)
  | .copyLost => (frontend.status.toErrorState, frontend.status.toErrorState)

def receive (frontend : Frontend) (statements : List Pgcore.Statement) : Option Frontend :=
  let backend := frontend.backend.query statements
  let (status, reported) := frontend.settle (answer frontend.backend frontend.status statements)
  some ⟨backend, status, frontend.ready ++ [(reported, ofSql backend.sql)]⟩

end Frontend

/-! ## The status of a statement -/

/-- No block is aborted where there is none. -/
def Sane (sql : Sql) : Prop := sql.failed = true → sql.block = .explicit

/-- Statements whose tag or error says what becomes of the block: no block is
    chained to another, no savepoint is rolled back to, and no `COMMIT` fails in
    an open block. -/
def Telling (sql : Sql) : Pgcore.Statement → Prop
  | .commit chained fails =>
    sql.block = .explicit → chained = false ∧ (fails = true → sql.failed = true)
  | .rollback chained => sql.block = .explicit → chained = false
  | .rollbackTo name => Sql.splitAt name sql.levels = none
  | .copy .. => False
  | _ => True

@[simp] theorem ofSql_start (sql : Sql) : ofSql sql.start = ofSql sql := by
  obtain ⟨block, failed, levels, committed⟩ := sql
  cases block <;> rfl

@[simp] theorem ofSql_beginImplicit (sql : Sql) : ofSql sql.beginImplicit = ofSql sql := by
  obtain ⟨block, failed, levels, committed⟩ := sql
  cases block <;> rfl

@[simp] theorem ofSql_endImplicit (sql : Sql) : ofSql sql.endImplicit = ofSql sql := by
  obtain ⟨block, failed, levels, committed⟩ := sql
  cases block <;> rfl

@[simp] theorem ofSql_finish (sql : Sql) : ofSql sql.finish = ofSql sql := by
  obtain ⟨block, failed, levels, committed⟩ := sql
  cases block <;> rfl

@[simp] theorem ofSql_write (sql : Sql) (rows : List Pgcore.Change) :
    ofSql (sql.write rows) = ofSql sql := by
  obtain ⟨block, failed, levels, committed⟩ := sql
  cases levels <;> rfl

theorem ofSql_abort (sql : Sql) : ofSql sql.abort = (ofSql sql).toErrorState := by
  obtain ⟨block, failed, levels, committed⟩ := sql
  cases block <;> cases levels <;> cases failed <;> rfl

theorem Sane.start {sql : Sql} (sane : Sane sql) : Sane sql.start := by
  obtain ⟨block, failed, levels, committed⟩ := sql
  cases block <;> simp_all [Sane, Sql.start]

variable {sql : Sql} {statement : Pgcore.Statement} {backend : Backend}
  {query : List Pgcore.Statement}

theorem Sane.beginImplicit (sane : Sane sql) : Sane sql.beginImplicit := by
  obtain ⟨block, failed, levels, committed⟩ := sql
  cases block <;> simp_all [Sane, Sql.beginImplicit]

theorem Sane.endImplicit (sane : Sane sql) : Sane sql.endImplicit := by
  obtain ⟨block, failed, levels, committed⟩ := sql
  cases block <;> simp_all [Sane, Sql.endImplicit]

theorem Sane.finish (sane : Sane sql) : Sane sql.finish := by
  obtain ⟨block, failed, levels, committed⟩ := sql
  cases block <;> simp_all [Sane, Sql.finish, Sql.commitTransaction]

theorem Sane.abort (sql : Sql) : Sane sql.abort := by
  obtain ⟨block, failed, levels, committed⟩ := sql
  cases block <;> cases levels <;> simp [Sane, Sql.abort, Sql.abortTransaction]

theorem Telling.start (telling : Telling sql statement) :
    Telling sql.start statement := by
  obtain ⟨block, failed, levels, committed⟩ := sql
  cases block with
  | idle => cases statement <;> simp_all [Telling, Sql.start, Sql.splitAt]
  | _ => exact telling

theorem Telling.beginImplicit
    (telling : Telling sql statement) : Telling sql.beginImplicit statement := by
  obtain ⟨block, failed, levels, committed⟩ := sql
  cases block with
  | started => cases statement <;> simp_all [Telling, Sql.beginImplicit]
  | _ => exact telling

theorem execute_completed {next : Sql} (sane : Sane sql)
    (telling : Telling sql statement) (executed : sql.execute statement = (next, true)) :
    Sane next ∧ ofSql next = applyCommandTransactionStatus (commandTag sql statement) (ofSql sql) := by
  obtain ⟨block, failed, levels, committed⟩ := sql
  cases statement with
  | begin bare optionsFail =>
    cases block with
    | explicit =>
      cases failed <;> cases optionsFail <;> cases executed <;> exact ⟨fun _ => rfl, rfl⟩
    | _ =>
      cases failed with
      | true => cases sane rfl
      | false => cases optionsFail <;> cases executed; exact ⟨fun _ => rfl, rfl⟩
  | commit chained fails =>
    cases block with
    | explicit =>
      obtain ⟨rfl, sound⟩ := telling rfl
      cases failed <;> cases fails <;> cases executed <;>
        exact ⟨by simp [Sane, Sql.abortTransaction, Sql.commitTransaction], rfl⟩
    | _ =>
      cases chained <;> cases fails <;> cases executed <;>
        exact ⟨by simp [Sane, Sql.commitTransaction], rfl⟩
  | rollback chained =>
    cases block with
    | explicit =>
      obtain rfl := telling rfl
      cases executed
      exact ⟨by simp [Sane, Sql.abortTransaction], rfl⟩
    | _ =>
      cases chained <;> cases executed
      exact ⟨by simp [Sane, Sql.abortTransaction], rfl⟩
  | savepoint name =>
    cases block <;> cases executed
    exact ⟨sane, rfl⟩
  | release name =>
    dsimp only [Sql.execute] at executed
    cases found : Sql.splitAt name levels with
    | none => simp [found] at executed
    | some split =>
      simp only [found] at executed
      cases executed
      exact ⟨sane, rfl⟩
  | rollbackTo name =>
    have missing : Sql.splitAt name levels = none := telling
    simp [Sql.execute, missing] at executed
  | change rows fails =>
    cases fails <;> cases executed
    exact ⟨by cases levels <;> exact sane, ofSql_write _ rows⟩
  | copy => exact telling.elim

/-- An error is noticed before the block is left. -/
theorem execute_failed {next : Sql}
    (telling : Telling sql statement) (executed : sql.execute statement = (next, false)) :
    ofSql next = ofSql sql := by
  obtain ⟨block, failed, levels, committed⟩ := sql
  cases statement with
  | begin bare optionsFail =>
    cases block <;> cases optionsFail <;> cases executed <;> rfl
  | commit chained fails =>
    cases block with
    | explicit =>
      obtain ⟨rfl, sound⟩ := telling rfl
      cases failed with
      | true => cases executed
      | false =>
        cases fails with
        | true => cases sound rfl
        | false => cases executed
    | _ => cases chained <;> cases fails <;> cases executed <;> rfl
  | rollback chained => cases block <;> cases chained <;> cases executed <;> rfl
  | savepoint name => cases block <;> cases executed <;> rfl
  | release name =>
    dsimp only [Sql.execute] at executed
    cases found : Sql.splitAt name levels with
    | none =>
      simp only [found] at executed
      cases executed
      rfl
    | some split => simp [found] at executed
  | rollbackTo name =>
    have missing : Sql.splitAt name levels = none := telling
    simp only [Sql.execute, missing] at executed
    cases executed
    rfl
  | change rows fails =>
    cases fails <;> cases executed
    exact ofSql_write _ rows
  | copy => exact telling.elim

/-! ## The status of a query without COPY -/

theorem Telling.plain (telling : Telling sql statement) :
    statement.isCopy = false := by
  cases statement <;> first | rfl | exact telling.elim

theorem entered_reports (several : Bool) (backend : Backend) :
    ofSql (entered several backend).sql = ofSql backend.sql := by
  cases several with
  | false => exact ofSql_start _
  | true => exact (ofSql_beginImplicit _).trans (ofSql_start _)

/-- One statement of a query: the status follows the tag or the error. -/
theorem attempt_reports {next : Backend} {several ok : Bool}
    (sane : Sane backend.sql) (telling : Telling backend.sql statement)
    (attempted : Backend.machine.attempt several backend statement = (next, ok)) :
    Sane next.sql ∧
      ofSql next.sql = feedSimpleExecution (ofSql backend.sql)
        [if ok then .command (commandTag (entered several backend).sql statement) else .error] := by
  have ready : Sane (entered several backend).sql ∧ Telling (entered several backend).sql statement := by
    cases several with
    | false => exact ⟨sane.start, telling.start⟩
    | true => exact ⟨sane.start.beginImplicit, telling.start.beginImplicit⟩
  rw [← entered_reports several backend]
  cases refused : backend.start.sql.failed && !statement.exits with
  | true =>
    -- An aborted block rejects the statement.
    rw [Pgcore.Machine.attempt_rejected refused] at attempted
    cases attempted
    refine ⟨.abort _, ?_⟩
    rw [entered_reports several backend, ← ofSql_start backend.sql]
    exact ofSql_abort _
  | false =>
    have projected := Backend.execute_projects (entered several backend) telling.plain
    cases outcome : (entered several backend).execute statement with
    | mk after completed =>
      rw [@Pgcore.Machine.attempt_accepted _ Backend.machine several _ _ refused _ outcome]
        at attempted
      rw [outcome] at projected
      cases completed with
      | true =>
        cases attempted
        exact execute_completed ready.1 ready.2 projected
      | false =>
        cases attempted
        refine ⟨.abort _, ?_⟩
        exact (ofSql_abort _).trans (congrArg _ (execute_failed ready.2 projected))

theorem executions_report {several : Bool} (sane : Sane backend.sql)
    (telling : Backend.machine.Permits (fun backend => Telling backend.sql) several backend query) :
    Sane (Backend.machine.statements several backend query).1.sql ∧
      feedSimpleExecution (ofSql backend.sql) (executions several backend query) =
        ofSql (Backend.machine.statements several backend query).1.sql := by
  induction query generalizing backend with
  | nil =>
    have finished := Backend.finish_sql backend.start
    simp only [Backend.machine, Pgcore.Machine.statements, executions, finished]
    exact ⟨sane.start.finish, (ofSql_start _).symm.trans (ofSql_finish _).symm⟩
  | cons statement rest ih =>
    cases outcome : Backend.machine.attempt several backend statement with
    | mk next ok =>
      have attempted := attempt_reports sane telling.1 outcome
      have later := telling.2
      rw [outcome] at later
      cases ok with
      | false =>
        have stopped : Backend.machine.statements several backend (statement :: rest) =
            (next, false) := by
          cases rest <;> simp [Pgcore.Machine.statements, outcome]
        simp only [stopped, executions, outcome]
        exact ⟨attempted.1, attempted.2.symm⟩
      | true =>
        simp only [executions, outcome]
        cases rest with
        | nil =>
          have finished := Backend.finish_sql next.endImplicit
          simp only [Pgcore.Machine.statements, outcome]
          refine ⟨finished ▸ attempted.1.endImplicit.finish, ?_⟩
          exact attempted.2.symm.trans
            ((ofSql_endImplicit _).symm.trans ((ofSql_finish _).symm.trans (congrArg ofSql finished.symm)))
        | cons second rest =>
          simp only [Pgcore.Machine.statements, outcome]
          have between : ∀ state : Backend, state = (if statement.isTransaction
              then Backend.machine.finish next else next) →
              Sane state.sql ∧ ofSql state.sql = ofSql next.sql := by
            intro state same
            split at same
            · subst same
              have finished := Backend.finish_sql next
              exact ⟨finished ▸ attempted.1.finish, (congrArg ofSql finished).trans (ofSql_finish _)⟩
            · subst same
              exact ⟨attempted.1, rfl⟩
          obtain ⟨sane', same⟩ := between _ rfl
          have run := ih sane' later
          rw [same, attempted.2] at run
          exact run

/-! ## The status of a COPY -/

/-- `BEGIN` or `START TRANSACTION`. -/
def opens : Pgcore.Statement → Bool
  | .begin .. => true
  | _ => false

structure Outside (sql : Sql) : Prop where
  block : sql.block ≠ .explicit
  failed : sql.failed = false

theorem Outside.sane (outside : Outside sql) : Sane sql :=
  fun failed => by simp [outside.failed] at failed

theorem Outside.idle (outside : Outside sql) : ofSql sql = .idle := by
  obtain ⟨block, failed, levels, committed⟩ := sql
  cases block with
  | explicit => exact absurd rfl outside.block
  | _ => rfl

theorem Outside.start (outside : Outside sql) : Outside sql.start := by
  obtain ⟨block, failed, levels, committed⟩ := sql
  cases block with
  | idle => exact ⟨by simp [Sql.start], rfl⟩
  | _ => exact outside

section

variable (outside : Outside sql)
include outside

theorem Outside.beginImplicit : Outside sql.beginImplicit := by
  obtain ⟨block, failed, levels, committed⟩ := sql
  cases block with
  | started => exact ⟨by simp [Sql.beginImplicit], outside.failed⟩
  | _ => exact outside

theorem Outside.endImplicit : Outside sql.endImplicit := by
  obtain ⟨block, failed, levels, committed⟩ := sql
  cases block with
  | implicit => exact ⟨by simp [Sql.endImplicit], outside.failed⟩
  | _ => exact outside

theorem Outside.finish : Outside sql.finish := by
  obtain ⟨block, failed, levels, committed⟩ := sql
  cases block with
  | started => exact ⟨by simp [Sql.finish, Sql.commitTransaction], rfl⟩
  | _ => exact outside

theorem Outside.abort : Outside sql.abort := by
  obtain ⟨block, failed, levels, committed⟩ := sql
  cases block with
  | explicit => exact absurd rfl outside.block
  | _ => exact ⟨by simp [Sql.abort, Sql.abortTransaction], rfl⟩

theorem Outside.write (rows : List Pgcore.Change) :
    Outside (sql.write rows) := by
  obtain ⟨block, failed, levels, committed⟩ := sql
  cases levels <;> exact ⟨outside.block, outside.failed⟩

/-- Outside a block only `BEGIN` opens one. -/
theorem Outside.execute (other : opens statement = false) : Outside (sql.execute statement).1 := by
  obtain ⟨block, failed, levels, committed⟩ := sql
  have closed : block ≠ .explicit := outside.block
  cases statement with
  | begin => cases other
  | commit chained fails =>
    cases block <;> cases chained <;> cases fails <;>
      first | exact absurd rfl closed | exact outside | exact ⟨by simp [Sql.execute, Sql.commitTransaction], rfl⟩
  | rollback chained =>
    cases block <;> cases chained <;>
      first | exact absurd rfl closed | exact outside | exact ⟨by simp [Sql.execute, Sql.abortTransaction], rfl⟩
  | savepoint name => simpa [Sql.execute, closed] using outside
  | release name =>
    dsimp only [Sql.execute]
    split <;> exact ⟨closed, outside.failed⟩
  | rollbackTo name =>
    dsimp only [Sql.execute]
    split
    · exact ⟨closed, rfl⟩
    · exact outside
  | change rows | copy rows => exact outside.write rows

end

/-- Neither a block nor a statement that would open one. -/
structure Quiet (backend : Backend) : Prop where
  outside : Outside backend.sql
  pending : ∀ statement ∈ backend.pending, opens statement = false

theorem Quiet.execute (quiet : Quiet backend)
    (other : opens statement = false) : Quiet (backend.execute statement).1 := by
  refine ⟨?_, (backend.execute_pending statement).symm ▸ quiet.pending⟩
  cases kind : statement.isCopy with
  | false =>
    have executed := quiet.outside.execute other
    rwa [Backend.execute_projects backend kind] at executed
  | true =>
    cases statement with
    | copy => exact quiet.outside
    | _ => cases kind

theorem Quiet.finish (quiet : Quiet backend) : Quiet backend.finish :=
  ⟨backend.finish_sql.symm ▸ quiet.outside.finish, backend.finish_pending.symm ▸ quiet.pending⟩

theorem Quiet.attempt (several : Bool) (quiet : Quiet backend) (other : opens statement = false) :
    Quiet (Backend.machine.attempt several backend statement).1 := by
  apply Pgcore.Machine.attempt_cases
  · exact ⟨quiet.outside.start.abort, quiet.pending⟩
  · intro _ result executed
    have ready : Quiet (entered several backend) := by
      cases several with
      | false => exact ⟨quiet.outside.start, quiet.pending⟩
      | true => exact ⟨quiet.outside.start.beginImplicit, quiet.pending⟩
    have after : Quiet result.1 := executed ▸ ready.execute other
    split
    · exact after
    · exact ⟨after.outside.abort, after.pending⟩

theorem Quiet.simple (quiet : Quiet backend)
    (others : ∀ statement ∈ query, opens statement = false) :
    Quiet (Backend.machine.simple backend query).1 := by
  have permitted : Backend.machine.Permits (fun _ statement => opens statement = false)
      (1 < query.length) backend query :=
    Pgcore.Machine.permits_of_forall fun statement mem _ => others statement mem
  refine Pgcore.Machine.statements_invariant ?_ ?_ ?_ ?_ permitted quiet
  · exact fun _ quiet => ⟨quiet.outside.start, quiet.pending⟩
  · exact fun _ quiet => ⟨quiet.outside.endImplicit, quiet.pending⟩
  · exact fun _ quiet => quiet.finish
  · exact fun _ _ quiet other => quiet.attempt _ other

theorem Quiet.copy {backend : Backend} (quiet : Quiet backend) (rows : List Pgcore.Change)
    (ending : Pgcore.CopyEnd) : Quiet (backend.copy rows ending).1 := by
  have asked : Quiet (Backend.machine.simple backend [.copy rows ending]).1 :=
    quiet.simple (by simp [opens])
  simp only [Backend.copy]
  cases outcome : Backend.machine.simple backend [.copy rows ending] with
  | mk next ok =>
    rw [outcome] at asked
    have inserted : Quiet (next.beginCopy.insertRows rows) :=
      ⟨asked.outside.start.write rows, asked.pending⟩
    cases ok with
    | false => exact asked
    | true =>
      cases ending with
      | done => exact ⟨inserted.finish.outside, inserted.finish.pending⟩
      | failed => exact ⟨inserted.outside.abort, inserted.pending⟩
      | cancelled => exact ⟨asked.outside, asked.pending⟩

theorem Quiet.batch (quiet : Quiet backend)
    (others : ∀ statement ∈ query, opens statement = false) : Quiet (backend.batch query) := by
  fun_induction backend.batch query with
  | case1 => exact quiet
  | case2 backend rows ending rest next copied ih =>
    have later := fun other mem => others other (.tail _ mem)
    have after := @Quiet.copy { backend with pending := rest } ⟨quiet.outside, later⟩ rows ending
    rw [copied] at after
    exact ih ⟨after.outside, by simp⟩ later
  | case3 backend rows ending rest next lost =>
    have later := fun other mem => others other (.tail _ mem)
    have after := @Quiet.copy { backend with pending := rest } ⟨quiet.outside, later⟩ rows ending
    rwa [lost] at after
  | case4 backend statement rest notCopy next completed ih =>
    have after : Quiet (Backend.machine.simple backend [statement]).1 :=
      quiet.simple (by simp_all)
    rw [completed] at after
    exact ih after fun other mem => others other (.tail _ mem)
  | case5 backend statement rest notCopy next failed =>
    have after : Quiet (Backend.machine.simple backend [statement]).1 :=
      quiet.simple (by simp_all)
    rwa [failed] at after

/-- Nothing but idle was seen so far. -/
def Conversation.Calm : Conversation → Prop
  | .answered status => status = .idle
  | .copied | .copyLost => True

variable {conversation : Conversation}

theorem Conversation.Calm.error (calm : conversation.Calm) :
    (conversation.feed .error).Calm := by
  cases conversation with
  | answered status => cases calm; rfl
  | copied | copyLost => trivial

theorem commandTag_ne_begin (sql : Sql)
    (other : opens statement = false) : commandTag sql statement ≠ .begin := by
  cases statement with
  | begin => cases other
  | commit =>
    obtain ⟨block, failed, levels, committed⟩ := sql
    cases block <;> cases failed <;> simp [commandTag]
  | _ => simp [commandTag]

theorem Conversation.Calm.command (calm : conversation.Calm)
    (sql : Sql) (other : opens statement = false) :
    (conversation.feed (.command (commandTag sql statement))).Calm := by
  cases conversation with
  | answered status =>
    cases calm
    cases tag : commandTag sql statement with
    | begin => exact absurd tag (commandTag_ne_begin sql other)
    | _ => rfl
  | copied | copyLost => trivial

theorem Quiet.converse (quiet : Quiet backend) (calm : conversation.Calm)
    (others : ∀ statement ∈ query, opens statement = false) :
    (converse backend conversation query).Calm := by
  fun_induction Wire.converse backend conversation query with
  | case1 => exact calm
  | case2 backend conversation rows ending rest asked next copied ih =>
    have later := fun other mem => others other (.tail _ mem)
    have after := @Quiet.copy { backend with pending := rest } ⟨quiet.outside, later⟩ rows ending
    rw [copied] at after
    exact ih ⟨after.outside, by simp⟩ trivial later
  | case3 => trivial
  | case4 => exact calm.error
  | case5 backend conversation statement rest notCopy next completed ih =>
    have other := others statement (List.mem_cons_self ..)
    have after : Quiet (Backend.machine.simple backend [statement]).1 :=
      quiet.simple (by simpa using other)
    rw [completed] at after
    exact ih after (calm.command _ other) fun other mem => others other (.tail _ mem)
  | case6 => exact calm.error

/-! ## Every answer -/

/-- What the status can follow: telling statements, and a `COPY` outside a block
    in a query that opens none, or one that is a query of its own and does not
    succeed. -/
def Followed (backend : Backend) (query : List Pgcore.Statement) : Prop :=
  if query.any Pgcore.Statement.isCopy then
    (backend.sql.block ≠ .explicit ∧ ∀ statement ∈ query, opens statement = false) ∨
      (Backend.soleCopy query = some .failed ∨
        (Backend.soleCopy query).isSome ∧ backend.sql.failed = true)
  else Backend.machine.Permits (fun backend => Telling backend.sql) (1 < query.length) backend query

/-- Between queries. -/
structure Synchronous (frontend : Frontend) : Prop where
  status : frontend.status = ofSql frontend.backend.sql
  sane : Sane frontend.backend.sql
  pending : ∀ statement ∈ frontend.backend.pending, opens statement = false
  ready : ∀ message ∈ frontend.ready, message.1 = message.2

variable {ending : Pgcore.CopyEnd}

theorem Synchronous.initial : Synchronous .initial where
  status := rfl
  sane := by simp [Sane, Frontend.initial, Backend.initial, Sql.initial]
  pending := by simp [Frontend.initial, Backend.initial]
  ready := by simp [Frontend.initial]

/-- It is enough that what is kept and sent is the state of the block. -/
theorem Synchronous.answered {frontend frontend' : Frontend}
    {status : TransactionStatus} (synchronous : Synchronous frontend)
    (received : frontend.receive query = some frontend')
    (settled : frontend.settle (answer frontend.backend frontend.status query) = (status, status))
    (same : status = ofSql (frontend.backend.query query).sql)
    (sane : Sane (frontend.backend.query query).sql)
    (pending : ∀ statement ∈ (frontend.backend.query query).pending, opens statement = false) :
    Synchronous frontend' := by
  simp only [Frontend.receive, settled, Option.some.injEq] at received
  subst received
  refine ⟨same, sane, pending, fun message mem => ?_⟩
  rcases List.mem_append.mp mem with before | now
  · exact synchronous.ready message before
  · rw [List.mem_singleton.mp now]
    exact same

/-- A query without `COPY` is answered with the state of the block. -/
theorem answer_plain (sane : Sane backend.sql) (plain : query.any Pgcore.Statement.isCopy = false)
    (telling : Backend.machine.Permits (fun backend => Telling backend.sql) (1 < query.length)
      backend query) :
    answer backend (ofSql backend.sql) query = .answered (ofSql (backend.query query).sql) ∧
      Sane (backend.query query).sql ∧ (backend.query query).pending = backend.pending := by
  by_cases bare : query = [.begin true false]
  · subst bare
    have completed : backend.start.sql.execute (.begin true false) =
        ((backend.start.execute (.begin true false)).1.sql, true) := by
      cases block : backend.start.sql.block <;> simp [Sql.execute, Backend.execute, block]
    have finished := Backend.finish_sql (backend.start.execute (.begin true false)).1
    have reported := execute_completed sane.start (show Telling _ (.begin true false) from trivial)
      completed
    rw [ofSql_start] at reported
    refine ⟨congrArg Conversation.answered ?_, ?_, ?_⟩
    · exact reported.2.symm.trans ((ofSql_finish _).symm.trans (congrArg ofSql finished.symm))
    · exact finished ▸ reported.1.finish
    · exact Backend.finish_pending _
  · have answered : answer backend (ofSql backend.sql) query =
        .answered (feedSimpleExecution (ofSql backend.sql)
          (executions (1 < query.length) backend query)) := by
      unfold answer
      split
      · exact absurd rfl bare
      · cases plain
      · exact if_neg (by simp [plain])
    have queried : backend.query query = (Backend.machine.simple backend query).1 := by
      unfold Backend.query
      split
      · exact absurd rfl bare
      · cases plain
      · exact if_neg (by simp [plain])
    obtain ⟨after, report⟩ := executions_report sane telling
    rw [answered, queried, report]
    exact ⟨rfl, after, Backend.simple_pending backend query⟩

theorem soleCopy_some (sole : Backend.soleCopy query = some ending) :
    ∃ rows, query = [.copy rows ending] := by
  unfold Backend.soleCopy at sole
  split at sole
  · cases sole
    exact ⟨_, rfl⟩
  · cases sole

/-- A query with `COPY` that is not one `COPY` is split. -/
theorem answer_split (copies : query.any Pgcore.Statement.isCopy = true)
    (several : Backend.soleCopy query = none) (backend : Backend) (status : TransactionStatus) :
    answer backend status query = converse backend (.answered status) query ∧
      backend.query query = backend.batch query := by
  constructor
  · unfold answer
    split
    · cases copies
    · cases several
    · exact if_pos copies
  · unfold Backend.query
    split
    · cases copies
    · cases several
    · exact if_pos copies

/-- Outside a block a query with `COPY` is answered with idle. -/
theorem Quiet.answer (quiet : Quiet backend) (copies : query.any Pgcore.Statement.isCopy = true)
    (others : ∀ statement ∈ query, opens statement = false) :
    (answer backend .idle query).Calm ∧ Quiet (backend.query query) := by
  cases sole : Backend.soleCopy query with
  | none =>
    obtain ⟨answered, queried⟩ := answer_split copies sole backend .idle
    rw [answered, queried]
    exact ⟨quiet.converse rfl others, quiet.batch others⟩
  | some ending =>
    obtain ⟨rows, rfl⟩ := soleCopy_some sole
    refine ⟨quiet.converse rfl ?_, ?_⟩
    · intro statement mem
      rcases List.mem_cons.mp mem with rfl | parked
      · rfl
      · exact quiet.pending statement parked
    · have after := quiet.copy rows ending
      cases outcome : backend.copy rows ending with
      | mk next ok =>
        rw [outcome] at after
        cases ok with
        | true =>
          have drained : backend.query [.copy rows ending] =
              { next with pending := [] }.batch next.pending := by
            simp [Backend.query, outcome]
          rw [drained]
          exact Quiet.batch ⟨after.outside, by simp⟩ after.pending
        | false =>
          have stopped : backend.query [.copy rows ending] = next := by
            simp [Backend.query, outcome]
          rwa [stopped]

/-- A `COPY` that is rejected or fails over its data. -/
theorem copy_lost {backend : Backend} {rows : List Pgcore.Change} {ending : Pgcore.CopyEnd}
    (sane : Sane backend.sql) (lost : ending = .failed ∨ backend.sql.failed = true) :
    ∃ after, backend.copy rows ending = (after, false) ∧
      ofSql after.sql = (ofSql backend.sql).toErrorState ∧ Sane after.sql ∧
      after.pending = backend.pending := by
  have asked := Backend.simple_copy backend rows ending
  cases failed : backend.start.sql.failed with
  | true =>
    rw [failed, if_pos rfl] at asked
    refine ⟨backend.start.abort, by simp [Backend.copy, asked], ?_, .abort _, rfl⟩
    exact (ofSql_abort _).trans (congrArg _ (ofSql_start _))
  | false =>
    rw [failed, if_neg Bool.false_ne_true] at asked
    have failing : ending = .failed := by
      refine lost.resolve_right fun aborted => ?_
      have block := sane aborted
      simp [Backend.start, Sql.start, block, aborted] at failed
    subst failing
    refine ⟨((backend.start.endImplicit.finish.beginCopy).insertRows rows).abort.abortCopy,
      by simp [Backend.copy, asked], ?_, .abort _, Backend.finish_pending _⟩
    have finished := Backend.finish_sql backend.start.endImplicit
    refine (ofSql_abort _).trans (congrArg TransactionStatus.toErrorState ?_)
    calc ofSql (backend.start.endImplicit.finish.sql.start.write rows)
        = ofSql backend.start.endImplicit.sql.finish := by simp [finished]
      _ = ofSql backend.sql := by
          exact (ofSql_finish _).trans ((ofSql_endImplicit _).trans (ofSql_start _))

/-- A `COPY` that does not succeed, as a query of its own, is answered like any
    other error. -/
theorem answer_lost {rows : List Pgcore.Change} (status : TransactionStatus) {after : Backend}
    (lost : backend.copy rows ending = (after, false)) :
    answer backend status [.copy rows ending] = .copyLost ∨
      answer backend status [.copy rows ending] = .answered status.toErrorState := by
  simp only [answer, converse]
  split
  · rw [lost]
    exact .inl rfl
  · exact .inr rfl

/-- A query that the status can follow is answered with the state of the block. -/
theorem Synchronous.receive {frontend frontend' : Frontend}
    (synchronous : Synchronous frontend) (followed : Followed frontend.backend query)
    (received : frontend.receive query = some frontend') : Synchronous frontend' := by
  have status := synchronous.status
  cases copies : query.any Pgcore.Statement.isCopy with
  | false =>
    simp only [Followed, copies, Bool.false_eq_true, if_false] at followed
    obtain ⟨answered, sane, pending⟩ := answer_plain synchronous.sane copies followed
    rw [← status] at answered
    exact synchronous.answered received (congrArg frontend.settle answered) rfl sane
      (pending ▸ synchronous.pending)
  | true =>
    simp only [Followed, copies, if_true] at followed
    rcases followed with ⟨closed, others⟩ | unsuccessful
    · have quiet : Quiet frontend.backend := by
        refine ⟨⟨closed, Bool.eq_false_iff.mpr fun failed => ?_⟩, synchronous.pending⟩
        exact closed (synchronous.sane failed)
      have idle := status.trans quiet.outside.idle
      obtain ⟨calm, after⟩ := quiet.answer copies others
      refine synchronous.answered received ?_ after.outside.idle.symm after.outside.sane
        after.pending
      rw [idle]
      cases conversation : answer frontend.backend .idle query with
      | answered status =>
        rw [conversation] at calm
        cases calm
        rfl
      | copied | copyLost => simp [Frontend.settle, idle, TransactionStatus.toErrorState]
    · have sole : ∃ rows ending, query = [.copy rows ending] ∧
          (ending = .failed ∨ frontend.backend.sql.failed = true) := by
        rcases unsuccessful with failing | ⟨some_, aborted⟩
        · obtain ⟨rows, rfl⟩ := soleCopy_some failing
          exact ⟨rows, _, rfl, .inl rfl⟩
        · obtain ⟨ending, sole⟩ := Option.isSome_iff_exists.mp some_
          obtain ⟨rows, rfl⟩ := soleCopy_some sole
          exact ⟨rows, ending, rfl, .inr aborted⟩
      obtain ⟨rows, ending, rfl, lost⟩ := sole
      obtain ⟨after, copied, report, sane, pending⟩ := @copy_lost _ rows _ synchronous.sane lost
      have queried : frontend.backend.query [.copy rows ending] = after := by
        simp [Backend.query, copied]
      refine @Synchronous.answered _ _ _ frontend.status.toErrorState synchronous received ?_ ?_ ?_ ?_
      · rcases answer_lost frontend.status copied with answered | answered <;> rw [answered] <;> rfl
      · rw [queried, report, status]
      · rwa [queried]
      · rw [queried, pending]
        exact synchronous.pending

instance decidableTelling (sql : Sql) : DecidablePred (Telling sql)
  | .commit chained fails => inferInstanceAs
      (Decidable (sql.block = .explicit → chained = false ∧ (fails = true → sql.failed = true)))
  | .rollback chained => inferInstanceAs (Decidable (sql.block = .explicit → chained = false))
  | .rollbackTo name => inferInstanceAs (Decidable (Sql.splitAt name sql.levels = none))
  | .copy .. => inferInstanceAs (Decidable False)
  | .begin .. | .savepoint _ | .release _ | .change .. => inferInstanceAs (Decidable True)

instance decidableFollowed (backend : Backend) : DecidablePred (Followed backend) :=
  fun query => inferInstanceAs (Decidable (if query.any Pgcore.Statement.isCopy then _ else _))

/-- A `COPY` with a statement behind it; then a block that fails, below a
    savepoint, and is left. -/
def followedQueries : List (List Pgcore.Statement) :=
  [[.copy [1] .done, .change [2] false], [.begin true false], [.savepoint 0, .change [3] true],
    [.copy [4] .done], [.rollback false], [.begin false false, .change [5] false, .commit false false]]

end FastPg.Wire
