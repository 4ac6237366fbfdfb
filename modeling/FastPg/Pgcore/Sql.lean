import Mathlib.Data.List.Basic

/-! # SQL transactions of one session

What the documented transaction-block rules make of a sequence of simple
queries: which row changes are committed after each of them. A query of several
statements is one implicit block, `BEGIN` turns it into an explicit one, and an
error aborts the block or, below a savepoint, its innermost level.

The loop over the statements of a query is kept apart from what the statements
do, so that the backend can be run by the same loop.
-/

namespace FastPg.Pgcore

/-- A row change; only its identity matters. -/
abbrev Change := Nat

abbrev SavepointName := Nat

/-- How a `COPY FROM STDIN` ends: completed, failed over its data, or cancelled
    by the client before the data was used. -/
inductive CopyEnd where
  | done
  | failed
  | cancelled
  deriving DecidableEq, Repr

inductive Statement where
  /-- `bare` is the one word `BEGIN`; setting the options may fail. -/
  | begin (bare : Bool) (optionsFail : Bool)
  /-- A commit fails where a deferred check does. -/
  | commit (chain : Bool) (fails : Bool)
  | rollback (chain : Bool)
  | savepoint (name : SavepointName)
  | release (name : SavepointName)
  | rollbackTo (name : SavepointName)
  /-- Any other statement: its row changes, up to its failure if it fails. -/
  | change (rows : List Change) (fails : Bool)
  | copy (rows : List Change) (ending : CopyEnd)
  deriving DecidableEq, Repr

namespace Statement

/-- `fastpg_pgcore_is_transaction_exit_stmt` -/
def exits : Statement → Bool
  | commit .. | rollback _ | rollbackTo _ => true
  | _ => false

/-- A `TransactionStmt`. -/
def isTransaction : Statement → Bool
  | change .. | copy .. => false
  | _ => true

def isCopy : Statement → Bool
  | copy .. => true
  | _ => false

end Statement

/-! ## The loop over the statements of a query -/

/-- What the loop needs of a state: the pieces of command processing. -/
structure Machine (σ : Type) where
  /-- `StartTransactionCommand` -/
  start : σ → σ
  /-- `BeginImplicitTransactionBlock` -/
  beginImplicit : σ → σ
  /-- `EndImplicitTransactionBlock` -/
  endImplicit : σ → σ
  /-- `CommitTransactionCommand` -/
  finish : σ → σ
  /-- `AbortCurrentTransaction` -/
  abort : σ → σ
  failed : σ → Bool
  /-- One statement, and whether it succeeded. -/
  execute : σ → Statement → σ × Bool

namespace Machine

variable {σ : Type} (machine : Machine σ)

/-- Run one statement, and whether it succeeded: an aborted block rejects it
    unless it exits the block. -/
def attempt (several : Bool) (state : σ) (statement : Statement) : σ × Bool :=
  let state := machine.start state
  if machine.failed state && !statement.exits then (machine.abort state, false)
  else
    let state := if several then machine.beginImplicit state else state
    match machine.execute state statement with
    | (state, true) => (state, true)
    | (state, false) => (machine.abort state, false)

/-- The statements of one query: the first error ends it. Between statements
    only a transaction statement finishes the command. -/
def statements (several : Bool) : σ → List Statement → σ × Bool
  | state, [] => (machine.finish (machine.start state), true)
  | state, [last] =>
    match machine.attempt several state last with
    | (state, true) => (machine.finish (machine.endImplicit state), true)
    | (state, false) => (state, false)
  | state, statement :: rest =>
    match machine.attempt several state statement with
    | (state, true) =>
      statements several (if statement.isTransaction then machine.finish state else state) rest
    | (state, false) => (state, false)

/-- `fastpg_pgcore_execute_simple`, or upstream's `exec_simple_query`. -/
def simple (state : σ) (query : List Statement) : σ × Bool :=
  machine.statements (1 < query.length) state query

/-- Every statement that is reached meets the condition where it is reached. -/
def Permits (condition : σ → Statement → Prop) (several : Bool) : σ → List Statement → Prop
  | _, [] => True
  | state, statement :: rest =>
    condition state statement ∧
      match machine.attempt several state statement with
      | (state, true) =>
        Permits condition several
          (if statement.isTransaction then machine.finish state else state) rest
      | (_, false) => True

variable {machine} {query : List Statement}

theorem permits_of_forall {condition : σ → Statement → Prop} {several : Bool} {state : σ}
    (always : ∀ statement ∈ query, ∀ state, condition state statement) :
    machine.Permits condition several state query := by
  induction query generalizing state with
  | nil => trivial
  | cons statement rest ih =>
    refine ⟨always statement (.head _) state, ?_⟩
    split
    · exact ih fun other mem => always other (.tail _ mem)
    · trivial

instance decidablePermits {condition : σ → Statement → Prop}
    [∀ state, DecidablePred (condition state)] (several : Bool) :
    ∀ state query, Decidable (machine.Permits condition several state query)
  | _, [] => inferInstanceAs (Decidable True)
  | state, statement :: rest =>
    match outcome : machine.attempt several state statement with
    | (next, true) =>
      have : Decidable (machine.Permits condition several
          (if statement.isTransaction then machine.finish next else next) rest) :=
        decidablePermits several _ rest
      decidable_of_iff (condition state statement ∧ machine.Permits condition several
        (if statement.isTransaction then machine.finish next else next) rest)
        (by simp only [Permits, outcome])
    | (_, false) =>
      decidable_of_iff (condition state statement) (by simp only [Permits, outcome, and_true])

variable {statement : Statement}

theorem attempt_rejected {several : Bool} {state : σ}
    (rejected : (machine.failed (machine.start state) && !statement.exits) = true) :
    machine.attempt several state statement = (machine.abort (machine.start state), false) :=
  if_pos rejected

/-- An accepted statement is executed, and an abort follows if it fails. -/
theorem attempt_accepted {several : Bool} {state : σ} {statement : Statement}
    (accepted : (machine.failed (machine.start state) && !statement.exits) = false)
    {result : σ × Bool}
    (executed : machine.execute (if several then machine.beginImplicit (machine.start state)
      else machine.start state) statement = result) :
    machine.attempt several state statement =
      (if result.2 then result.1 else machine.abort result.1, result.2) := by
  simp only [attempt, accepted, executed, Bool.false_eq_true, if_false]
  obtain ⟨next, ok⟩ := result
  cases ok with
  | true => rfl
  | false => rfl

theorem attempt_cases {P : σ → Prop} {several : Bool} {state : σ} {statement : Statement}
    (rejected : P (machine.abort (machine.start state)))
    (accepted : (machine.failed (machine.start state) && !statement.exits) = false →
      ∀ result, machine.execute (if several then machine.beginImplicit (machine.start state)
        else machine.start state) statement = result →
        P (if result.2 then result.1 else machine.abort result.1)) :
    P (machine.attempt several state statement).1 := by
  cases refused : machine.failed (machine.start state) && !statement.exits with
  | true => exact attempt_rejected refused ▸ rejected
  | false => exact attempt_accepted refused rfl ▸ accepted refused _ rfl

/-- What every attempt and every end of a command keeps, a query keeps. -/
theorem statements_invariant {condition : σ → Statement → Prop} {Inv : σ → Prop} {several : Bool}
    (start : ∀ state, Inv state → Inv (machine.start state))
    (endImplicit : ∀ state, Inv state → Inv (machine.endImplicit state))
    (finish : ∀ state, Inv state → Inv (machine.finish state))
    (attempt : ∀ state statement, Inv state → condition state statement →
      Inv (machine.attempt several state statement).1)
    {state : σ} {query : List Statement} (permitted : machine.Permits condition several state query)
    (inv : Inv state) : Inv (machine.statements several state query).1 := by
  induction query generalizing state with
  | nil => exact finish _ (start _ inv)
  | cons statement rest ih =>
    have attempted := attempt state statement inv permitted.1
    have later := permitted.2
    cases outcome : machine.attempt several state statement with
    | mk next ok =>
      rw [outcome] at attempted later
      cases rest with
      | nil =>
        cases ok with
        | false => simpa [statements, outcome] using attempted
        | true => simpa [statements, outcome] using finish _ (endImplicit _ attempted)
      | cons second rest =>
        cases ok with
        | false => simpa [statements, outcome] using attempted
        | true =>
          simp only [statements, outcome]
          apply ih later
          split
          · exact finish _ attempted
          · exact attempted

/-- A map between the states of two machines that every piece commutes with,
    for the statements of a kind. -/
structure Projects {τ : Type} (machine : Machine σ) (other : Machine τ) (f : σ → τ)
    (kind : Statement → Prop) : Prop where
  start : ∀ state, f (machine.start state) = other.start (f state)
  beginImplicit : ∀ state, f (machine.beginImplicit state) = other.beginImplicit (f state)
  endImplicit : ∀ state, f (machine.endImplicit state) = other.endImplicit (f state)
  finish : ∀ state, f (machine.finish state) = other.finish (f state)
  abort : ∀ state, f (machine.abort state) = other.abort (f state)
  failed : ∀ state, machine.failed state = other.failed (f state)
  execute : ∀ state statement, kind statement →
    other.execute (f state) statement =
      (f (machine.execute state statement).1, (machine.execute state statement).2)

variable {kind : Statement → Prop}

theorem Projects.attempt {τ : Type} {other : Machine τ} {f : σ → τ}
    (projects : Projects machine other f kind) (several : Bool) (state : σ)
    (ofKind : kind statement) :
    other.attempt several (f state) statement =
      (f (machine.attempt several state statement).1,
        (machine.attempt several state statement).2) := by
  dsimp only [Machine.attempt]
  rw [← projects.start, ← projects.failed]
  split
  · rw [projects.abort]
  · have entered : (if several then other.beginImplicit (f (machine.start state))
        else f (machine.start state)) =
        f (if several then machine.beginImplicit (machine.start state) else machine.start state) := by
      rw [← projects.beginImplicit]
      split <;> rfl
    rw [entered, projects.execute _ statement ofKind]
    generalize machine.execute _ statement = outcome
    obtain ⟨next, ok⟩ := outcome
    cases ok with
    | true => rfl
    | false => simp only [projects.abort]

theorem Projects.statements {τ : Type} {other : Machine τ} {f : σ → τ}
    (projects : Projects machine other f kind) (several : Bool) (state : σ)
    (ofKind : ∀ statement ∈ query, kind statement) :
    other.statements several (f state) query =
      (f (machine.statements several state query).1,
        (machine.statements several state query).2) := by
  induction query generalizing state with
  | nil => simp only [Machine.statements, projects.finish, projects.start]
  | cons statement rest ih =>
    have attempted := projects.attempt several state (ofKind statement (.head _))
    have later := fun state => ih state fun other mem =>
      ofKind other (.tail _ mem)
    cases outcome : machine.attempt several state statement with
    | mk next ok =>
      rw [outcome] at attempted
      cases rest with
      | nil =>
        cases ok with
        | false => simp [Machine.statements, attempted, outcome]
        | true =>
          simp [Machine.statements, attempted, outcome, projects.finish,
            projects.endImplicit]
      | cons second rest =>
        cases ok with
        | false => simp [Machine.statements, attempted, outcome]
        | true =>
          simp only [Machine.statements, attempted, outcome]
          rw [← later]
          congr 1
          rw [apply_ite f, projects.finish]

end Machine

/-! ## The outcome by the documented rules -/

/-- Whether a transaction is open, and what opened it. -/
inductive TransactionBlock where
  | idle
  /-- A single statement. -/
  | started
  /-- A query of several statements. -/
  | implicit
  | explicit
  deriving DecidableEq, Repr

/-- The changes since a savepoint, or since the transaction began. -/
structure Level where
  savepoint : Option SavepointName
  changes : List Change
  deriving DecidableEq, Repr

structure Sql where
  block : TransactionBlock
  /-- An explicit block is aborted; its innermost level is lost already. -/
  failed : Bool
  /-- The open levels, innermost first. -/
  levels : List Level
  committed : List Change
  deriving DecidableEq, Repr

namespace Sql

def initial : Sql := ⟨.idle, false, [], []⟩

/-- All changes of the open transaction, in order. -/
def changes (sql : Sql) : List Change := (sql.levels.reverse.map Level.changes).flatten

def start (sql : Sql) : Sql :=
  match sql.block with
  | .idle => { sql with block := .started, failed := false, levels := [⟨none, []⟩] }
  | _ => sql

def beginImplicit (sql : Sql) : Sql :=
  match sql.block with
  | .started => { sql with block := .implicit }
  | _ => sql

def endImplicit (sql : Sql) : Sql :=
  match sql.block with
  | .implicit => { sql with block := .started }
  | _ => sql

def commitTransaction (sql : Sql) : Sql :=
  ⟨.idle, false, [], sql.committed ++ sql.changes⟩

def abortTransaction (sql : Sql) : Sql := ⟨.idle, false, [], sql.committed⟩

/-- The chained transaction begins at once. -/
def chain (sql : Sql) : Sql :=
  { sql with block := .explicit, failed := false, levels := [⟨none, []⟩] }

/-- A command outside a block is a transaction of its own. -/
def finish (sql : Sql) : Sql :=
  match sql.block with
  | .started => sql.commitTransaction
  | _ => sql

/-- An error: the innermost level is lost, or everything outside a block. -/
def abort (sql : Sql) : Sql :=
  match sql.block with
  | .explicit =>
    match sql.levels with
    | top :: outer => { sql with failed := true, levels := { top with changes := [] } :: outer }
    | [] => { sql with failed := true }
  | _ => sql.abortTransaction

def write (sql : Sql) (rows : List Change) : Sql :=
  match sql.levels with
  | top :: outer => { sql with levels := { top with changes := top.changes ++ rows } :: outer }
  | [] => sql

/-- The levels down to the innermost savepoint of the name, and the others. -/
def splitAt (name : SavepointName) : List Level → Option (List Level × List Level)
  | [] => none
  | level :: outer =>
    if level.savepoint = some name then some ([level], outer)
    else (splitAt name outer).map fun (inner, rest) => (level :: inner, rest)

/-- Move the changes of released levels to the level outside. -/
def releaseInto (released : List Level) : List Level → List Level
  | parent :: outer =>
    { parent with
      changes := parent.changes ++ (released.reverse.map Level.changes).flatten } :: outer
  | [] => []

def execute (sql : Sql) : Statement → Sql × Bool
  | .begin _ optionsFail =>
    match sql.block, optionsFail with
    | .explicit, _ => (sql, !optionsFail)
    -- An error right after `BEGIN` leaves no block behind.
    | _, true => (sql, false)
    | _, false => ({ sql with block := .explicit }, true)
  | .commit chained fails =>
    match sql.block with
    | .explicit =>
      if sql.failed then
        let ended := sql.abortTransaction
        (if chained then ended.chain else ended, true)
      else if fails then ({ sql with block := .started }, false)
      else
        let ended := sql.commitTransaction
        (if chained then ended.chain else ended, true)
    | .implicit =>
      if chained || fails then (sql, false) else (sql.commitTransaction, true)
    | _ => if chained then (sql, false) else (sql.commitTransaction, true)
  | .rollback chained =>
    match sql.block with
    | .explicit =>
      let ended := sql.abortTransaction
      (if chained then ended.chain else ended, true)
    | _ => if chained then (sql, false) else (sql.abortTransaction, true)
  | .savepoint name =>
    if sql.block = .explicit then
      ({ sql with levels := ⟨some name, []⟩ :: sql.levels }, true)
    else (sql, false)
  | .release name =>
    match splitAt name sql.levels with
    | some (released, outer) => ({ sql with levels := releaseInto released outer }, true)
    | none => (sql, false)
  | .rollbackTo name =>
    match splitAt name sql.levels with
    | some (_, outer) =>
      ({ sql with failed := false, levels := ⟨some name, []⟩ :: outer }, true)
    | none => (sql, false)
  | .change rows fails => (sql.write rows, !fails)
  | .copy rows ending => (sql.write rows, ending = .done)

def machine : Machine Sql := ⟨start, beginImplicit, endImplicit, finish, abort, failed, execute⟩

/-- The state after a query, by the documented rules. -/
def query (sql : Sql) (statements : List Statement) : Sql := (machine.simple sql statements).1

end Sql

end FastPg.Pgcore
