import FastPg.Lib.Transition

/-! # Statements of one connection

A client sends simple queries and, while a `COPY FROM STDIN` is open, its data.
A query with a recognised `COPY` among its statements is run one statement at a
time; what follows a `COPY` is parked in the session until the data is
complete. The log records which statements were run, and which `COPY`s were
lost.
-/

namespace FastPg.Wire

open Transition List

/-- What executing a statement comes to. -/
inductive Outcome where
  | completed
  | failed
  /-- The statement waits for the data of a `COPY`. -/
  | copyIn
  deriving DecidableEq, Repr

structure Statement where
  /-- `simple_statement_is_copy_from_stdin`, a test of the text only. -/
  recognised : Bool
  outcome : Outcome
  deriving DecidableEq, Repr

/-- The messages of a client; the end of a `COPY` comes with its outcome. -/
inductive ClientMessage where
  | query (statements : List Statement)
  | copyData (ok : Bool)
  | copyDone (ok : Bool)
  | copyFail
  deriving DecidableEq, Repr

/-- A statement with the query it was sent in and its place there. -/
structure Sent where
  message : Nat
  index : Nat
  statement : Statement
  deriving DecidableEq, Repr

inductive Occurrence where
  /-- A statement was executed when so many queries had been received. -/
  | ran (received : Nat) (sent : Sent)
  /-- The `COPY` of a query failed or was cancelled. -/
  | copyLost (message : Nat)
  deriving DecidableEq, Repr

structure Connection where
  /-- `PgWireConnectionState::CopyInProgress`; else the connection is ready. -/
  copyInProgress : Bool
  /-- The session's active `COPY`, by the query it belongs to. -/
  copy : Option Nat
  /-- `pending_simple` -/
  pendingSimple : List Sent
  /-- How many queries were received. -/
  received : Nat
  log : List Occurrence
  deriving DecidableEq, Repr

def number (message : Nat) : Nat → List Statement → List Sent
  | _, [] => []
  | index, statement :: rest => ⟨message, index, statement⟩ :: number message (index + 1) rest

namespace Connection

def initial : Connection := ⟨false, none, [], 0, []⟩

def record (connection : Connection) (sent : Sent) : Connection :=
  { connection with log := connection.log ++ [.ran connection.received sent] }

/-- `remember_copy_target`, with the state of the connection. -/
def enterCopy (connection : Connection) (sent : Sent) : Connection :=
  { connection with copyInProgress := true, copy := some sent.message }

/-- The loop of `execute_simple_message` over a split query, and that of
    `drain_pending_simple`: a `COPY` parks the rest. -/
def runOneByOne (connection : Connection) : List Sent → Connection
  | [] => connection
  | sent :: rest =>
    let connection := connection.record sent
    match sent.statement.outcome with
    | .completed => connection.runOneByOne rest
    | .failed => connection
    | .copyIn => { connection.enterCopy sent with pendingSimple := rest }

/-- One call of the backend for the whole query: only a failure ends it. -/
def runTogether (connection : Connection) : List Sent → Connection
  | [] => connection
  | sent :: rest =>
    let connection := connection.record sent
    match sent.statement.outcome with
    | .completed => connection.runTogether rest
    | .failed => connection
    | .copyIn => (connection.enterCopy sent).runTogether rest

/-- `execute_simple_message`; a query that arrives during a `COPY` is ignored. -/
def query (connection : Connection) (statements : List Statement) : Connection :=
  if connection.copyInProgress then connection
  else
    let connection := { connection with received := connection.received + 1 }
    let sents := number connection.received 0 statements
    if 1 < statements.length ∧ statements.any Statement.recognised then
      connection.runOneByOne sents
    else connection.runTogether sents

/-- The `COPY` ends without its statement being completed; the parked
    statements are not touched. -/
def loseCopy (connection : Connection) : Connection :=
  { connection with
    copyInProgress := false
    copy := none
    log := connection.log ++ (connection.copy.map Occurrence.copyLost).toList }

/-- `push_copy_data` -/
def copyData (connection : Connection) (ok : Bool) : Connection :=
  if connection.copyInProgress then
    if ok && connection.copy.isSome then connection else connection.loseCopy
  else connection

/-- `on_copy_done`: `finish_active_copy`, then `drain_pending_simple`. -/
def copyDone (connection : Connection) (ok : Bool) : Connection :=
  if connection.copyInProgress then
    if ok && connection.copy.isSome then
      let drained := { connection with copyInProgress := false, copy := none, pendingSimple := [] }
      drained.runOneByOne connection.pendingSimple
    else connection.loseCopy
  else connection

/-- `on_copy_fail` -/
def copyFail (connection : Connection) : Connection :=
  if connection.copyInProgress then connection.loseCopy else connection

/-- `process_pgwire_message` -/
def receive (connection : Connection) : ClientMessage → Option Connection
  | .query statements => some (connection.query statements)
  | .copyData ok => some (connection.copyData ok)
  | .copyDone ok => some (connection.copyDone ok)
  | .copyFail => some connection.copyFail

end Connection

/-! ## The law -/

/-- What may stand before a run of a statement: an earlier statement of the same
    query that did not fail, and no lost `COPY` of it. -/
def Occurrence.Precedes (sent : Sent) : Occurrence → Prop
  | .ran _ earlier =>
    earlier.message = sent.message →
      earlier.index < sent.index ∧ earlier.statement.outcome ≠ .failed
  | .copyLost message => message ≠ sent.message

/-- Statements are run for the latest query, in order, once, and never after a
    failure. -/
inductive Lawful : List Occurrence → Prop where
  | nil : Lawful []
  | ran {log : List Occurrence} {sent : Sent} (before : Lawful log)
      (inOrder : ∀ occurrence ∈ log, occurrence.Precedes sent) :
      Lawful (log ++ [.ran sent.message sent])
  | copyLost {log : List Occurrence} (before : Lawful log) (message : Nat) :
      Lawful (log ++ [.copyLost message])

namespace Connection

/-- Statements that may be run next. -/
structure Due (connection : Connection) (sents : List Sent) : Prop where
  own : ∀ sent ∈ sents, sent.message = connection.received
  sorted : sents.Pairwise (fun earlier later => earlier.index < later.index)
  next : ∀ sent ∈ sents, ∀ occurrence ∈ connection.log, occurrence.Precedes sent

/-- Nothing in the log is of a later query. -/
def Past (connection : Connection) : Prop :=
  ∀ occurrence ∈ connection.log, match occurrence with
    | .ran _ sent => sent.message ≤ connection.received
    | .copyLost message => message ≤ connection.received

/-- What a connection keeps while no `COPY` with parked statements is lost. -/
structure Orderly (connection : Connection) : Prop where
  lawful : Lawful connection.log
  past : connection.Past
  active : connection.copyInProgress = true → connection.copy = some connection.received
  parked : connection.Due connection.pendingSimple
  waiting : connection.copyInProgress = false → connection.pendingSimple = []

variable {sent : Sent}

theorem Orderly.initial : Connection.initial.Orderly where
  lawful := .nil
  past := by simp [Past, Connection.initial]
  active := by simp [Connection.initial]
  parked := ⟨by simp [Connection.initial], .nil, by simp [Connection.initial]⟩
  waiting := fun _ => rfl

theorem Due.nil (connection : Connection) : connection.Due [] := ⟨by simp, .nil, by simp⟩

variable {connection : Connection}

/-- The statements after one that did not fail are due. -/
theorem Due.record {rest : List Sent} (due : connection.Due (sent :: rest))
    (done : sent.statement.outcome ≠ .failed) :
    (connection.record sent).Due rest where
  own := fun other mem => due.own other (.tail _ mem)
  sorted := (pairwise_cons.mp due.sorted).2
  next := by
    intro other mem occurrence logged
    rcases mem_append.mp logged with before | now
    · exact due.next other (.tail _ mem) occurrence before
    · rw [mem_singleton.mp now]
      exact fun _ => ⟨(pairwise_cons.mp due.sorted).1 other mem, done⟩

/-- A connection on its way through the statements of the latest query. -/
structure Running (connection : Connection) : Prop where
  lawful : Lawful connection.log
  past : connection.Past
  active : connection.copyInProgress = true → connection.copy = some connection.received
  drained : connection.pendingSimple = []

variable {sents : List Sent}

section

variable (running : connection.Running)
include running

theorem Running.record (own : sent.message = connection.received)
    (next : ∀ occurrence ∈ connection.log, occurrence.Precedes sent) :
    (connection.record sent).Running where
  lawful := by
    have logged := Lawful.ran running.lawful next
    rwa [own] at logged
  past := by
    intro occurrence mem
    rcases mem_append.mp mem with before | now
    · exact running.past occurrence before
    · rw [mem_singleton.mp now]
      exact Nat.le_of_eq own
  active := running.active
  drained := running.drained

theorem Running.enterCopy (own : sent.message = connection.received) :
    (connection.enterCopy sent).Running :=
  ⟨running.lawful, running.past, fun _ => congrArg some own, running.drained⟩

theorem Running.orderly :
    connection.Orderly where
  lawful := running.lawful
  past := running.past
  active := running.active
  parked := running.drained ▸ Due.nil connection
  waiting := fun _ => running.drained

theorem Running.runOneByOne (due : connection.Due sents) :
    (connection.runOneByOne sents).Orderly := by
  induction sents generalizing connection with
  | nil => exact running.orderly
  | cons sent rest ih =>
    have own := due.own sent (mem_cons_self ..)
    have recorded := running.record own (due.next sent (.head _))
    simp only [Connection.runOneByOne]
    cases outcome : sent.statement.outcome with
    | completed => exact ih recorded (due.record (by simp [outcome]))
    | failed => exact recorded.orderly
    | copyIn =>
      have entered := recorded.enterCopy own
      have later := due.record (by simp [outcome])
      exact ⟨entered.lawful, entered.past, entered.active, ⟨later.own, later.sorted, later.next⟩,
        fun ready => by cases ready⟩

theorem Running.runTogether (due : connection.Due sents) :
    (connection.runTogether sents).Orderly := by
  induction sents generalizing connection with
  | nil => exact running.orderly
  | cons sent rest ih =>
    have own := due.own sent (mem_cons_self ..)
    have recorded := running.record own (due.next sent (.head _))
    simp only [Connection.runTogether]
    cases outcome : sent.statement.outcome with
    | completed => exact ih recorded (due.record (by simp [outcome]))
    | failed => exact recorded.orderly
    | copyIn =>
      have later := due.record (by simp [outcome])
      exact ih (recorded.enterCopy own) ⟨later.own, later.sorted, later.next⟩

end

theorem number_spec (message index : Nat) (statements : List Statement) :
    (∀ sent ∈ number message index statements, sent.message = message ∧ index ≤ sent.index) ∧
      (number message index statements).Pairwise (fun earlier later => earlier.index < later.index) := by
  induction statements generalizing index with
  | nil => exact ⟨by simp [number], .nil⟩
  | cons statement rest ih =>
    obtain ⟨placed, sorted⟩ := ih (index + 1)
    refine ⟨?_, pairwise_cons.mpr ⟨fun sent mem => (placed sent mem).2, sorted⟩⟩
    intro sent mem
    rcases mem_cons.mp mem with rfl | later
    · exact ⟨rfl, Nat.le_refl _⟩
    · have place := placed sent later
      exact ⟨place.1, by omega⟩

/-- The statements of a new query are due: the log knows older queries only. -/
theorem Past.due (past : connection.Past) (statements : List Statement) :
    Due { connection with received := connection.received + 1 }
      (number (connection.received + 1) 0 statements) where
  own := fun sent mem => ((number_spec _ 0 statements).1 sent mem).1
  sorted := (number_spec _ 0 statements).2
  next := by
    intro sent mem occurrence logged
    have newer := ((number_spec _ 0 statements).1 sent mem).1
    have older := past occurrence logged
    cases occurrence with
    | ran received earlier => exact fun same => by dsimp only at older; omega
    | copyLost message => exact fun same => by dsimp only at older; omega

theorem Orderly.query (orderly : connection.Orderly)
    (statements : List Statement) : (connection.query statements).Orderly := by
  unfold Connection.query
  split
  next => exact orderly
  next ready =>
    have idle : connection.copyInProgress = false := by simpa using ready
    have running : Running { connection with received := connection.received + 1 } := by
      refine ⟨orderly.lawful, ?_, fun busy => absurd busy ready, orderly.waiting idle⟩
      intro occurrence logged
      have older := orderly.past occurrence logged
      cases occurrence with
      | ran received sent => exact Nat.le_succ_of_le older
      | copyLost message => exact Nat.le_succ_of_le older
    have due := orderly.past.due statements
    dsimp only
    split
    · exact running.runOneByOne due
    · exact running.runTogether due

/-- Losing a `COPY` that no statement waits for. -/
theorem Orderly.loseCopy (orderly : connection.Orderly)
    (busy : connection.copyInProgress = true) (drained : connection.pendingSimple = []) :
    connection.loseCopy.Orderly := by
  have active := orderly.active busy
  apply Running.orderly
  unfold Connection.loseCopy
  rw [active]
  refine ⟨.copyLost orderly.lawful _, ?_, nofun, drained⟩
  intro occurrence mem
  rcases mem_append.mp mem with before | now
  · exact orderly.past occurrence before
  · cases mem_singleton.mp now
    exact Nat.le_refl _

theorem Orderly.copyDone (orderly : connection.Orderly) (busy : connection.copyInProgress = true) :
    (connection.copyDone true).Orderly := by
  have active := orderly.active busy
  have drained : Running { connection with
      copyInProgress := false, copy := none, pendingSimple := [] } :=
    ⟨orderly.lawful, orderly.past, nofun, rfl⟩
  have parked := orderly.parked
  have run := drained.runOneByOne ⟨parked.own, parked.sorted, parked.next⟩
  simpa [Connection.copyDone, busy, active] using run

/-- A `COPY` that statements wait for is not lost. -/
def Completes (connection : Connection) : ClientMessage → Prop
  | .query _ => True
  | .copyData ok | .copyDone ok => ok = true ∨ connection.pendingSimple = []
  | .copyFail => connection.pendingSimple = []

instance (connection : Connection) : DecidablePred connection.Completes
  | .query _ => .isTrue trivial
  | .copyData _ | .copyDone _ => inferInstanceAs (Decidable (_ ∨ _))
  | .copyFail => inferInstanceAs (Decidable (_ = _))

theorem Orderly.receive {connection' : Connection} {message : ClientMessage}
    (orderly : connection.Orderly) (completes : connection.Completes message)
    (received : connection.receive message = some connection') : connection'.Orderly := by
  cases busy : connection.copyInProgress with
  | false =>
    cases message with
    | query statements =>
      cases received
      exact orderly.query statements
    | copyData | copyDone | copyFail =>
      -- Outside a `COPY` its messages are ignored.
      have same : connection' = connection := by
        simpa [Connection.receive, Connection.copyData, Connection.copyDone,
          Connection.copyFail, busy] using received.symm
      exact same ▸ orderly
  | true =>
    have active := orderly.active busy
    cases message with
    | query statements =>
      cases received
      exact orderly.query statements
    | copyData ok =>
      cases received
      cases ok with
      | true => simpa [Connection.copyData, busy, active] using orderly
      | false =>
        have lost := orderly.loseCopy busy (completes.resolve_left Bool.false_ne_true)
        simpa [Connection.copyData, busy] using lost
    | copyDone ok =>
      cases received
      cases ok with
      | true => exact orderly.copyDone busy
      | false =>
        have lost := orderly.loseCopy busy (completes.resolve_left Bool.false_ne_true)
        simpa [Connection.copyDone, busy] using lost
    | copyFail =>
      cases received
      simpa [Connection.copyFail, busy] using orderly.loseCopy busy completes

end Connection

variable {log : List Occurrence}

theorem Lawful.current (lawful : Lawful log) {received : Nat} {sent : Sent}
    (mem : .ran received sent ∈ log) : sent.message = received := by
  induction lawful with
  | nil => cases mem
  | ran _ _ ih =>
    rcases mem_append.mp mem with before | now
    · exact ih before
    · cases mem_singleton.mp now
      rfl
  | copyLost _ _ ih =>
    rcases mem_append.mp mem with before | now
    · exact ih before
    · cases mem_singleton.mp now

theorem Lawful.precedes (lawful : Lawful log) :
    log.Pairwise fun earlier later =>
      ∀ received sent, later = .ran received sent → earlier.Precedes sent := by
  induction lawful with
  | nil => exact .nil
  | ran _ inOrder ih =>
    refine pairwise_append.mpr ⟨ih, pairwise_singleton _ _, ?_⟩
    intro earlier mem later last received sent same
    cases mem_singleton.mp last
    cases same
    exact inOrder earlier mem
  | copyLost _ _ ih =>
    refine pairwise_append.mpr ⟨ih, pairwise_singleton _ _, ?_⟩
    intro earlier mem later last received sent same
    cases mem_singleton.mp last
    cases same

/-- While no `COPY` is lost that statements wait for, a statement that is run
    belongs to the latest query, and what ran before it in the same query stands
    earlier there and neither failed nor was a lost `COPY`. -/
theorem statements_follow_messages {connection : Connection}
    (reached : Reaches Connection.receive Connection.Completes .initial connection) :
    (∀ received sent, .ran received sent ∈ connection.log → sent.message = received) ∧
      connection.log.Pairwise fun earlier later =>
        ∀ received sent, later = .ran received sent → earlier.Precedes sent := by
  have orderly : connection.Orderly :=
    reached.invariant .initial fun _ _ _ orderly completes taken => orderly.receive completes taken
  exact ⟨fun _ _ member => orderly.lawful.current member, orderly.lawful.precedes⟩

/-- A `COPY` with a statement behind it, completed; then one that fails. -/
def completedMessages : List ClientMessage :=
  [.query [⟨true, .copyIn⟩, ⟨false, .completed⟩], .copyData true, .copyDone true,
    .query [⟨true, .copyIn⟩], .copyFail, .query [⟨false, .failed⟩, ⟨false, .completed⟩]]

/-- A cancelled `COPY` with a statement behind it, and a `COPY` of its own after that. -/
def cancelledMessages : List ClientMessage :=
  [.query [⟨true, .copyIn⟩, ⟨false, .completed⟩], .copyFail, .query [⟨true, .copyIn⟩], .copyDone true]

theorem statements_follow_messages_completed :
    ∃ connection, run Connection.receive .initial completedMessages = some connection ∧
      connection.log.length = 5 ∧
      ∀ received sent, .ran received sent ∈ connection.log → sent.message = received := by
  refine ⟨_, rfl, rfl, (statements_follow_messages ?_).1⟩
  exact @Reaches.of_run _ _ _ _ (fun connection message => decide (connection.Completes message))
    (fun _ => True) (fun _ _ _ _ _ _ => trivial) (fun _ _ _ => of_decide_eq_true) _ _ _
    completedMessages .refl trivial (by decide) rfl

/-- The statement behind the cancelled `COPY` is run when the next query's
    `COPY` completes. -/
theorem cancelled_statement_runs :
    ∃ connection, run Connection.receive .initial cancelledMessages = some connection ∧
      .copyLost 1 ∈ connection.log ∧ .ran 2 ⟨1, 1, ⟨false, .completed⟩⟩ ∈ connection.log := by
  refine ⟨_, rfl, ?_, ?_⟩ <;> decide

end FastPg.Wire
