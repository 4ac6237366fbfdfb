import FastPg.Pgcore.Sql

/-! # The backend of one session

The backend runs the upstream transaction manager and the storage side by side.
Storage has its own stack of levels and its own flag for explicit transactions;
it learns about transactions from the manager's callbacks, from the calls made
for `BEGIN`, `COMMIT` and `ROLLBACK`, and from the brackets around a `COPY`.
-/

namespace FastPg.Pgcore

/-! ## Storage -/

/-- What storage keeps for a session, with the changes already published. -/
structure Store where
  /-- `transaction_stack`, innermost first. -/
  stack : List (List Change)
  /-- `explicit_transaction` -/
  explicit : Bool
  published : List Change
  deriving DecidableEq, Repr

namespace Store

def initial : Store := ⟨[], false, []⟩

def ensureTransaction (store : Store) : Store :=
  match store.stack with
  | [] => { store with stack := [[]] }
  | _ :: _ => store

/-- Row changes go to the innermost level. -/
def write (store : Store) (rows : List Change) : Store :=
  if rows = [] then store
  else match store.ensureTransaction.stack with
    | top :: outer => { store with stack := (top ++ rows) :: outer }
    | [] => store

/-- Every level is appended to the one outside it, and the last is published. -/
def commitAll (store : Store) : Store :=
  { store with stack := [], published := store.published ++ store.stack.reverse.flatten }

def rollbackAll (store : Store) : Store := { store with stack := [] }

/-- `commit_empty_implicit_transaction` looks at the innermost level only. -/
def commitEmptyImplicitTransaction (store : Store) : Store × Bool :=
  if store.explicit then (store, true)
  else match store.stack with
    | [] => (store, true)
    | [] :: outer => ({ store with stack := outer }, true)
    | _ :: _ => (store, false)

def xactCommitIfImplicit (store : Store) : Store :=
  match store.commitEmptyImplicitTransaction with
  | (store, true) => store
  | (store, false) => store.commitAll

/-- The shortcut for levels without changes leaves nothing either. -/
def xactAbortIfImplicit (store : Store) : Store :=
  if store.explicit then store else store.rollbackAll

/-- `fastpg_storage2_xact_begin`: pending implicit work is published first. -/
def xactBegin (store : Store) : Store :=
  if store.explicit then store.ensureTransaction
  else { store.xactCommitIfImplicit.ensureTransaction with explicit := true }

def xactCommit (store : Store) : Store := { store.commitAll with explicit := false }

def xactAbort (store : Store) : Store := { store.rollbackAll with explicit := false }

def subxactBegin (store : Store) : Store :=
  { store with stack := [] :: store.ensureTransaction.stack }

def subxactCommit (store : Store) : Store :=
  match store.stack with
  | top :: parent :: outer => { store with stack := (parent ++ top) :: outer }
  | _ => store

def subxactAbort (store : Store) : Store :=
  match store.stack with
  | _ :: parent :: outer => { store with stack := parent :: outer }
  | _ => store

/-- A callback fired a number of times. -/
def times (callback : Store → Store) : Nat → Store → Store
  | 0, store => store
  | count + 1, store => times callback count (callback store)

end Store

/-! ## The manager and its callbacks -/

structure Backend where
  sql : Sql
  store : Store
  /-- `pending_simple`: statements kept back until a `COPY` completes. -/
  pending : List Statement
  deriving DecidableEq, Repr

namespace Backend

def initial : Backend := ⟨.initial, .initial, []⟩

/-- The callbacks of a committing transaction: its open subtransactions first. -/
def onCommit (backend : Backend) : Store :=
  (Store.times .subxactCommit (backend.sql.levels.length - 1) backend.store).xactCommitIfImplicit

/-- How many of the given innermost levels are not aborted yet. -/
def unaborted (backend : Backend) (levels : List Level) : Nat :=
  levels.length - (if backend.sql.failed then 1 else 0)

/-- The callbacks of an aborting transaction, for what is not aborted yet. -/
def onAbort (backend : Backend) : Store :=
  match backend.unaborted backend.sql.levels with
  | 0 => backend.store
  | subtransactions + 1 =>
    (Store.times .subxactAbort subtransactions backend.store).xactAbortIfImplicit

def start (backend : Backend) : Backend := { backend with sql := backend.sql.start }

def beginImplicit (backend : Backend) : Backend :=
  { backend with sql := backend.sql.beginImplicit }

def endImplicit (backend : Backend) : Backend := { backend with sql := backend.sql.endImplicit }

def finish (backend : Backend) : Backend :=
  match backend.sql.block with
  | .started => { backend with sql := backend.sql.finish, store := backend.onCommit }
  | _ => backend

/-- An error aborts the innermost subtransaction of a block, if there is one. -/
def abort (backend : Backend) : Backend :=
  { backend with
    sql := backend.sql.abort
    store := match backend.sql.block, backend.sql.levels with
      | .explicit, _ :: _ :: _ =>
        if backend.sql.failed then backend.store else backend.store.subxactAbort
      | .explicit, _ =>
        if backend.sql.failed then backend.store else backend.store.xactAbortIfImplicit
      | .idle, _ => backend.store
      | _, _ => backend.store.xactAbortIfImplicit }

/-! ## Statements -/

/-- `fastpg_pgcore_execute_transaction_stmt` and the executor, with the storage
    call that is scheduled for the end of a `COMMIT` or `ROLLBACK`. The `COPY`
    statement itself only announces the data. -/
def execute (backend : Backend) (statement : Statement) : Backend × Bool :=
  let (sql, ok) := backend.sql.execute statement
  match statement with
  | .begin .. => ({ backend with sql := sql, store := backend.store.xactBegin }, ok)
  | .commit chained fails =>
    match backend.sql.block with
    | .explicit =>
      if backend.sql.failed then
        ({ backend with sql := sql, store := backend.onAbort.xactAbort }, ok)
      else if fails then
        -- The commit stops after its subtransactions; the abort is forced.
        let committed := Store.times .subxactCommit (backend.sql.levels.length - 1) backend.store
        ({ backend with sql := sql, store := committed.xactAbortIfImplicit.xactAbort }, ok)
      else ({ backend with sql := sql, store := backend.onCommit.xactCommit }, ok)
    | .implicit =>
      if chained then (backend, ok)
      else if fails then
        ({ backend with sql := sql, store := backend.onAbort.xactAbort }, ok)
      else ({ backend with sql := sql, store := backend.onCommit.xactCommit }, ok)
    | _ =>
      if chained then (backend, ok)
      else ({ backend with sql := sql, store := backend.onCommit.xactAbort }, ok)
  | .rollback chained =>
    if backend.sql.block ≠ .explicit ∧ chained = true then (backend, ok)
    else ({ backend with sql := sql, store := backend.onAbort.xactAbort }, ok)
  | .savepoint _ =>
    ({ backend with
      sql := sql, store := if ok then backend.store.subxactBegin else backend.store }, ok)
  | .release name =>
    match Sql.splitAt name backend.sql.levels with
    | some (released, _) =>
      ({ backend with
        sql := sql, store := Store.times .subxactCommit released.length backend.store }, ok)
    | none => (backend, ok)
  | .rollbackTo name =>
    match Sql.splitAt name backend.sql.levels with
    | some (inner, _) =>
      ({ backend with
        sql := sql
        store := (Store.times .subxactAbort (backend.unaborted inner)
          backend.store).subxactBegin }, ok)
    | none => (backend, ok)
  | .change rows _ => ({ backend with sql := sql, store := backend.store.write rows }, ok)
  | .copy .. => (backend, true)

def machine : Machine Backend :=
  ⟨start, beginImplicit, endImplicit, finish, abort, fun backend => backend.sql.failed, execute⟩

/-- `fastpg_pgcore_execute_transaction_command` for a bare `BEGIN`; the state of
    the block is not looked at. -/
def transactionCommand (backend : Backend) : Backend :=
  (backend.start.execute (.begin true false)).1.finish

/-! ## COPY -/

/-- `begin_copy` opens a level of its own. -/
def beginCopy (backend : Backend) : Backend :=
  { backend with store := backend.store.subxactBegin }

/-- `finish_copy`: outside the Rust catalog the bracket always owns its
    transaction. -/
def finishCopy (backend : Backend) : Backend :=
  { backend with store := backend.store.subxactCommit.xactCommitIfImplicit }

/-- `abort_copy` -/
def abortCopy (backend : Backend) : Backend :=
  { backend with store := backend.store.subxactAbort.xactAbortIfImplicit }

/-- Insert the rows of a `COPY` in a started command. -/
def insertRows (backend : Backend) (rows : List Change) : Backend :=
  { backend.start with
    sql := backend.start.sql.write rows, store := backend.store.write rows }

/-- A `COPY FROM STDIN` from its statement to the end of its data. The data is
    only used once it is complete, so a cancelled `COPY` never reaches the manager. -/
def copy (backend : Backend) (rows : List Change) (ending : CopyEnd) : Backend × Bool :=
  match machine.simple backend [.copy rows ending] with
  | (backend, false) => (backend, false)
  | (backend, true) =>
    let backend := backend.beginCopy
    match ending with
    | .done => ((backend.insertRows rows).finish.finishCopy, true)
    | .failed => ((backend.insertRows rows).abort.abortCopy, false)
    | .cancelled => (backend.abortCopy, false)

/-! ## Queries -/

/-- A query with a `COPY` among several statements is split, and each statement
    is run as a query of its own. -/
def batch : Backend → List Statement → Backend
  | backend, [] => backend
  | backend, .copy rows ending :: rest =>
    match { backend with pending := rest }.copy rows ending with
    | (backend, true) => batch { backend with pending := [] } rest
    | (backend, false) => backend
  | backend, statement :: rest =>
    match machine.simple backend [statement] with
    | (backend, true) => batch backend rest
    | (backend, false) => backend

/-- The state after a query. -/
def query (backend : Backend) (statements : List Statement) : Backend :=
  match statements with
  | [.begin true false] => backend.transactionCommand
  | [.copy rows ending] =>
    match backend.copy rows ending with
    | (backend, true) => { backend with pending := [] }.batch backend.pending
    | (backend, false) => backend
  | statements =>
    if statements.any Statement.isCopy then backend.batch statements
    else (machine.simple backend statements).1

end Backend

end FastPg.Pgcore
