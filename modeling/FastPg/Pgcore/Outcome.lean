import FastPg.Pgcore.Follow

/-! # What a session publishes is what it committed

Every query is run twice: by the documented rules, and by the backend. As long
as the queries keep to what storage can follow, both go through the same
transactions and storage publishes what they commit.
-/

namespace FastPg.Pgcore

open Transition

namespace Backend

/-! ## The manager is not disturbed -/

variable {statement : Statement} {backend : Backend}

theorem execute_projects (backend : Backend) (plain : statement.isCopy = false) :
    backend.sql.execute statement =
      ((backend.execute statement).1.sql, (backend.execute statement).2) := by
  obtain ⟨⟨block, failed, levels, committed⟩, store, pending⟩ := backend
  cases statement with
  | begin | savepoint | change => rfl
  | commit chained fails =>
    cases block <;> cases failed <;> cases chained <;> cases fails <;> rfl
  | rollback chained => cases block <;> cases chained <;> rfl
  | release name =>
    dsimp only [Sql.execute, execute]
    cases Sql.splitAt name levels with
    | none => rfl
    | some split => rfl
  | rollbackTo name =>
    dsimp only [Sql.execute, execute]
    cases Sql.splitAt name levels with
    | none => rfl
    | some split => rfl
  | copy => cases plain

theorem finish_sql (backend : Backend) : backend.finish.sql = backend.sql.finish := by
  obtain ⟨⟨block, failed, levels, committed⟩, store, pending⟩ := backend
  cases block <;> rfl

/-- The manager of a backend goes through the documented states. -/
theorem machine_projects :
    Machine.Projects machine Sql.machine Backend.sql (fun statement => statement.isCopy = false) where
  start _ := rfl
  beginImplicit _ := rfl
  endImplicit _ := rfl
  finish := finish_sql
  abort _ := rfl
  failed _ := rfl
  execute backend _ plain := execute_projects backend plain

theorem execute_pending (backend : Backend) (statement : Statement) :
    (backend.execute statement).1.pending = backend.pending := by
  obtain ⟨⟨block, failed, levels, committed⟩, store, pending⟩ := backend
  cases statement with
  | begin | savepoint | change | copy => rfl
  | commit chained fails =>
    cases block <;> cases failed <;> cases chained <;> cases fails <;> rfl
  | rollback chained => cases block <;> cases chained <;> rfl
  | release name =>
    dsimp only [execute]
    cases Sql.splitAt name levels with
    | none => rfl
    | some split => rfl
  | rollbackTo name =>
    dsimp only [execute]
    cases Sql.splitAt name levels with
    | none => rfl
    | some split => rfl

theorem finish_pending (backend : Backend) : backend.finish.pending = backend.pending := by
  obtain ⟨⟨block, failed, levels, committed⟩, store, pending⟩ := backend
  cases block <;> rfl

theorem attempt_pending (several : Bool) (backend : Backend) (statement : Statement) :
    (machine.attempt several backend statement).1.pending = backend.pending := by
  refine @Machine.attempt_cases _ machine (fun after => after.pending = backend.pending)
    several backend statement rfl ?_
  intro _ result executed
  have kept : result.1.pending = backend.pending := by
    rw [← executed]
    split <;> exact execute_pending _ statement
  split <;> exact kept

theorem simple_pending (backend : Backend) (query : List Statement) :
    (machine.simple backend query).1.pending = backend.pending :=
  @Machine.statements_invariant _ machine (fun _ _ => True)
    (fun state => state.pending = backend.pending) _ (fun _ same => same) (fun _ same => same)
    (fun state same => state.finish_pending.trans same)
    (fun state statement same _ => (attempt_pending _ state statement).trans same) _ query
    (Machine.permits_of_forall fun _ _ _ => trivial) rfl

/-! ## Queries without COPY -/

/-- Between queries: storage follows and no statement is kept back. -/
structure Settled (backend : Backend) : Prop where
  follows : backend.Follows
  released : backend.pending = []

theorem Careful.start
    (careful : backend.Careful statement) : backend.start.Careful statement := by
  obtain ⟨⟨block, failed, levels, committed⟩, store, pending⟩ := backend
  cases statement with
  | begin bare optionsFail =>
    rcases careful with known | ⟨ok, none, single⟩
    · exact .inl known
    · cases block with
      | idle => exact .inr ⟨ok, rfl, Nat.le_refl 1⟩
      | started | implicit | explicit => exact .inr ⟨ok, none, single⟩
  | copy => exact careful.elim
  | _ => trivial

theorem Careful.beginImplicit
    (careful : backend.Careful statement) : backend.beginImplicit.Careful statement := by
  obtain ⟨⟨block, failed, levels, committed⟩, store, pending⟩ := backend
  cases statement with
  | begin => cases block <;> exact careful
  | copy => exact careful.elim
  | _ => trivial

theorem start_open (backend : Backend) : backend.start.sql.block ≠ .idle := by
  obtain ⟨⟨block, failed, levels, committed⟩, store, pending⟩ := backend
  cases block <;> simp [start, Sql.start]

theorem beginImplicit_open (open_ : backend.sql.block ≠ .idle) :
    backend.beginImplicit.sql.block ≠ .idle := by
  obtain ⟨⟨block, failed, levels, committed⟩, store, pending⟩ := backend
  cases block <;> simp_all [beginImplicit, Sql.beginImplicit]

@[simp] theorem beginImplicit_failed (backend : Backend) :
    backend.beginImplicit.sql.failed = backend.sql.failed := by
  obtain ⟨⟨block, failed, levels, committed⟩, store, pending⟩ := backend
  cases block <;> rfl

theorem Settled.execute (settled : backend.Settled)
    (open_ : backend.sql.block ≠ .idle) (accepted : (backend.sql.failed && !statement.exits) = false)
    (careful : backend.Careful statement) {result : Backend × Bool}
    (executed : backend.execute statement = result) :
    (if result.2 then result.1 else result.1.abort).Settled := by
  have either : backend.sql.failed = false ∨ statement.exits = true := by
    simpa [Decidable.imp_iff_not_or] using accepted
  have settles := execute_settles settled.follows open_ either careful
  have released := (backend.execute_pending statement).trans settled.released
  rw [executed] at settles released
  obtain ⟨next, ok⟩ := result
  cases ok with
  | true => exact ⟨settles, released⟩
  | false => exact ⟨settles, released⟩

theorem Settled.attempt (several : Bool)
    (settled : backend.Settled) (careful : backend.Careful statement) :
    (machine.attempt several backend statement).1.Settled := by
  have started : backend.start.Settled := ⟨settled.follows.start, settled.released⟩
  apply Machine.attempt_cases
  · exact ⟨started.follows.abort, started.released⟩
  · intro accepted result executed
    cases several with
    | false => exact started.execute backend.start_open accepted careful.start executed
    | true =>
      have entered : backend.start.beginImplicit.Settled :=
        ⟨started.follows.beginImplicit, started.released⟩
      refine entered.execute (beginImplicit_open backend.start_open) ?_
        careful.start.beginImplicit executed
      rw [beginImplicit_failed]
      exact accepted

/-- A query without `COPY`, run by the loop. -/
theorem Settled.statements {several : Bool} {query : List Statement}
    (settled : backend.Settled) (permitted : machine.Permits Careful several backend query) :
    (machine.statements several backend query).1.Settled := by
  refine Machine.statements_invariant ?_ ?_ ?_ ?_ permitted settled
  · exact fun _ settled => ⟨settled.follows.start, settled.released⟩
  · exact fun _ settled => ⟨settled.follows.endImplicit, settled.released⟩
  · exact fun backend settled =>
      ⟨settled.follows.finish, (finish_pending backend).trans settled.released⟩
  · exact fun _ _ settled careful => settled.attempt several careful

/-! ## A bare BEGIN -/

theorem begin_ok (backend : Backend) (bare : Bool) :
    (backend.execute (.begin bare false)).2 = true := by
  obtain ⟨⟨block, failed, levels, committed⟩, store, pending⟩ := backend
  cases block <;> rfl

/-- The direct call does what the loop does; an aborted block does not reject
    it, but is not changed by it either. -/
theorem Follows.transactionCommand_sql (follows : backend.Follows) :
    backend.transactionCommand.sql = backend.sql.query [.begin true false] := by
  obtain ⟨sql, store, pending⟩ := backend
  unfold transactionCommand
  rw [finish_sql]
  cases follows with
  | idle => rfl
  | command outside => rcases outside with rfl | rfl <;> rfl
  | live => rfl
  | @lost level _ _ _ _ cleared =>
    obtain ⟨savepoint, changes⟩ := level
    cases cleared
    rfl
  | @sublost top _ _ _ cleared =>
    obtain ⟨savepoint, changes⟩ := top
    cases cleared
    rfl

theorem Settled.transactionCommand (settled : backend.Settled)
    (careful : backend.Careful (.begin true false)) : backend.transactionCommand.Settled := by
  have begun := begin_settles settled.follows.start backend.start_open careful.start
  unfold Settles at begun
  rw [if_pos (backend.start.begin_ok true)] at begun
  exact ⟨begun.finish, (finish_pending _).trans settled.released⟩

/-! ## COPY -/

/-- The statement of a `COPY` is a query that changes nothing. -/
theorem simple_copy (backend : Backend) (rows : List Change) (ending : CopyEnd) :
    machine.simple backend [.copy rows ending] =
      if backend.start.sql.failed then (backend.start.abort, false)
      else (backend.start.endImplicit.finish, true) := by
  cases failed : backend.start.sql.failed with
  | true => simp [Machine.simple, Machine.statements, Machine.attempt, machine, failed, Statement.exits]
  | false => simp [Machine.simple, Machine.statements, Machine.attempt, machine, failed, execute]

theorem simple_copy_idle (failed : Bool) (committed : List Change) (pending : List Statement)
    (rows : List Change) (ending : CopyEnd) :
    machine.simple ⟨⟨.idle, failed, [], committed⟩, ⟨[], false, committed⟩, pending⟩
        [.copy rows ending] =
      (⟨⟨.idle, false, [], committed⟩, ⟨[], false, committed⟩, pending⟩, true) := by
  simp [simple_copy, start, Sql.start, endImplicit, Sql.endImplicit, finish, onCommit, Sql.finish,
    Sql.commitTransaction, Sql.changes, Store.times, Store.xactCommitIfImplicit,
    Store.commitEmptyImplicitTransaction]

/-- The bracket around the data of an idle session: its rows are published by
    the end of the command, or by the end of the bracket if there are none. -/
theorem finishCopy_idle (committed rows : List Change) (pending : List Statement) :
    ((beginCopy ⟨⟨.idle, false, [], committed⟩, ⟨[], false, committed⟩, pending⟩).insertRows
        rows).finish.finishCopy =
      ⟨⟨.idle, false, [], committed ++ rows⟩, ⟨[], false, committed ++ rows⟩, pending⟩ := by
  cases rows with
  | nil =>
    simp [beginCopy, insertRows, start, Sql.start, finish, onCommit, Sql.finish, finishCopy,
      Sql.commitTransaction, Sql.changes, Store.times, Store.xactCommitIfImplicit, Sql.write,
      Store.commitEmptyImplicitTransaction, Store.write, Store.subxactBegin,
      Store.ensureTransaction, Store.subxactCommit]
  | cons row rows =>
    simp [beginCopy, insertRows, start, Sql.start, finish, onCommit, Sql.finish, finishCopy,
      Sql.commitTransaction, Sql.changes, Store.times, Store.xactCommitIfImplicit, Sql.write,
      Store.commitEmptyImplicitTransaction, Store.write, Store.subxactBegin,
      Store.ensureTransaction, Store.subxactCommit, Store.commitAll]

theorem write_open (top : List Change) (outer : List (List Change)) (explicit : Bool)
    (published rows : List Change) :
    Store.write ⟨top :: outer, explicit, published⟩ rows =
      ⟨(top ++ rows) :: outer, explicit, published⟩ := by
  unfold Store.write
  split
  next none => simp [none]
  next => rfl

/-- A query that follows and takes the manager where the rules do. -/
def Agrees (backend : Backend) (query : List Statement) (next : Backend) : Prop :=
  next.Settled ∧ next.sql = backend.sql.query query

/-- The `COPY` of an idle session is a transaction of its own. -/
theorem Settled.copy_idle (settled : backend.Settled)
    (idle : backend.sql.block = .idle) (rows : List Change) (ending : CopyEnd) :
    backend.Agrees [.copy rows ending] (backend.copy rows ending).1 := by
  obtain ⟨follows, released⟩ := settled
  obtain ⟨sql, store, pending⟩ := backend
  cases released
  cases follows with
  | @idle failed committed =>
    unfold copy
    rw [simple_copy_idle]
    cases ending with
    | done =>
      dsimp only
      rw [finishCopy_idle]
      refine ⟨⟨.idle, rfl⟩, ?_⟩
      simp [Sql.query, Machine.simple, Machine.statements, Machine.attempt, Sql.machine,
        Sql.start, Sql.execute, Sql.write, Sql.endImplicit, Sql.finish, Sql.commitTransaction,
        Sql.changes]
    | failed =>
      dsimp only [insertRows, beginCopy, Store.subxactBegin, Store.ensureTransaction]
      rw [write_open]
      exact ⟨⟨.idle, rfl⟩, rfl⟩
    | cancelled => exact ⟨⟨.idle, rfl⟩, rfl⟩
  | command outside => rcases outside with rfl | rfl <;> cases idle
  | live | lost | sublost => cases idle

/-- The bracket of a `COPY` in a block that storage knows: the rows reach the
    level that was open, and a failure takes that level with it. -/
theorem Settled.copy_known (settled : backend.Settled)
    (known : backend.store.explicit = true) (rows : List Change) {ending : CopyEnd}
    (used : ending ≠ .cancelled) :
    backend.Agrees [.copy rows ending] (backend.copy rows ending).1 := by
  obtain ⟨follows, released⟩ := settled
  obtain ⟨sql, store, pending⟩ := backend
  cases released
  have rejected := follows.abort
  cases follows with
  | idle | command => cases known
  | @live levels stack explicit committed rooted aligned =>
    cases known
    have announced : machine.simple ⟨⟨.explicit, false, levels, committed⟩,
          ⟨stack, true, committed⟩, []⟩ [.copy rows ending] =
        (⟨⟨.explicit, false, levels, committed⟩, ⟨stack, true, committed⟩, []⟩, true) := by
      rw [simple_copy]
      rfl
    have inserted : insertRows (beginCopy ⟨⟨.explicit, false, levels, committed⟩,
          ⟨stack, true, committed⟩, []⟩) rows =
        ⟨Sql.write ⟨.explicit, false, levels, committed⟩ rows,
          ⟨rows :: levels.map Level.changes, true, committed⟩, []⟩ := by
      unfold insertRows beginCopy Store.subxactBegin
      rw [aligned.ensured rooted.ne_nil, write_open]
      rfl
    unfold copy
    rw [announced]
    dsimp only
    rw [inserted]
    match levels, ending with
    | [], _ => exact rooted.elim
    | [top], .done => exact ⟨⟨.live rooted (.inl rfl), rfl⟩, rfl⟩
    | top :: next :: outer, .done => exact ⟨⟨.live rooted (.inl rfl), rfl⟩, rfl⟩
    | [top], .failed => exact ⟨⟨.lost rooted rfl (fun implicit => by cases implicit), rfl⟩, rfl⟩
    | top :: next :: outer, .failed => exact ⟨⟨.sublost rfl rooted, rfl⟩, rfl⟩
    | _, .cancelled => exact absurd rfl used
  | lost => exact ⟨⟨rejected, rfl⟩, rfl⟩
  | sublost => exact ⟨⟨rejected, rfl⟩, rfl⟩

/-! ## Every query -/

/-- How the `COPY` ends that is all of a query. -/
def soleCopy : List Statement → Option CopyEnd
  | [.copy _ ending] => some ending
  | _ => none

/-- What storage can follow: a `BEGIN` only where it has nothing to publish, and
    a `COPY` only as a query of its own, in an idle session or, if it is not
    cancelled, in a block that storage knows to be explicit. -/
def Cautious (backend : Backend) (query : List Statement) : Prop :=
  match soleCopy query with
  | some ending =>
    backend.sql.block = .idle ∨ (backend.store.explicit = true ∧ ending ≠ .cancelled)
  | none =>
    query.any Statement.isCopy = false ∧
      machine.Permits Careful (1 < query.length) backend query

theorem Settled.copy {rows : List Change} {ending : CopyEnd}
    (settled : backend.Settled) (cautious : backend.Cautious [.copy rows ending]) :
    backend.Agrees [.copy rows ending] (backend.copy rows ending).1 := by
  rcases cautious with idle | ⟨known, used⟩
  · exact settled.copy_idle idle rows ending
  · exact settled.copy_known known rows used

theorem Settled.simple {query : List Statement} (settled : backend.Settled)
    (plain : query.any Statement.isCopy = false)
    (permitted : machine.Permits Careful (1 < query.length) backend query) :
    backend.Agrees query (machine.simple backend query).1 := by
  have each : ∀ statement ∈ query, statement.isCopy = false := by simpa using plain
  have projected := machine_projects.statements (1 < query.length) backend each
  exact ⟨settled.statements permitted, (congrArg Prod.fst projected).symm⟩

theorem Settled.query {query : List Statement} (settled : backend.Settled)
    (cautious : backend.Cautious query) : backend.Agrees query (backend.query query) := by
  unfold Backend.query
  split
  next => exact ⟨settled.transactionCommand cautious.2.1, settled.follows.transactionCommand_sql⟩
  next rows ending =>
    have copied := settled.copy cautious
    cases outcome : backend.copy rows ending with
    | mk next ok =>
      rw [outcome] at copied
      cases ok with
      | false => exact copied
      | true =>
        -- No statement was kept back.
        obtain ⟨sql, store, pending⟩ := next
        cases copied.1.released
        exact copied
  next notBegin notCopy =>
    have allowed : query.any Statement.isCopy = false ∧
        machine.Permits Careful (1 < query.length) backend query := by
      have other : soleCopy query = none := by
        unfold soleCopy
        split
        next rows ending => exact absurd rfl (notCopy rows ending)
        next => rfl
      simpa only [Cautious, other] using cautious
    rw [if_neg (by simp [allowed.1])]
    exact settled.simple allowed.1 allowed.2

/-! ## The condition can be checked -/

instance decidableCareful (backend : Backend) : DecidablePred backend.Careful
  | .begin _ optionsFail => inferInstanceAs (Decidable (backend.store.explicit = true ∨
      (optionsFail = false ∧ backend.sql.changes = [] ∧ backend.sql.levels.length ≤ 1)))
  | .copy .. => inferInstanceAs (Decidable False)
  | .commit .. | .rollback _ | .savepoint _ | .release _ | .rollbackTo _ | .change .. =>
    inferInstanceAs (Decidable True)

instance decidableCautious (backend : Backend) (query : List Statement) :
    Decidable (backend.Cautious query) :=
  match sole : soleCopy query with
  | some ending => decidable_of_iff
      (backend.sql.block = .idle ∨ (backend.store.explicit = true ∧ ending ≠ .cancelled))
      (by simp only [Cautious, sole])
  | none => decidable_of_iff
      (query.any Statement.isCopy = false ∧
        machine.Permits Careful (1 < query.length) backend query)
      (by simp only [Cautious, sole])

end Backend

/-! ## Runs of queries -/

/-- A query, by the documented rules and by the backend. -/
def issue (state : Sql × Backend) (query : List Statement) : Option (Sql × Backend) :=
  some (state.1.query query, state.2.query query)

theorem reaches_settled {state : Sql × Backend}
    (reached : Reaches issue (fun state query => state.2.Cautious query)
      (.initial, .initial) state) :
    state.2.Settled ∧ state.2.sql = state.1 := by
  induction reached with
  | refl => exact ⟨⟨.idle, rfl⟩, rfl⟩
  | tail _ cautious issued ih =>
    obtain ⟨settled, same⟩ := ih
    cases issued
    have next := settled.query cautious
    exact ⟨next.1, next.2.trans (congrArg (Sql.query · _) same)⟩

/-- A block with a savepoint and a `COPY`, a chained block that is rolled back,
    a query that fails at its second statement, and a `COPY` of its own. -/
def orderlyQueries : List (List Statement) :=
  [[.begin true false], [.change [1] false, .savepoint 5, .change [2] false], [.rollbackTo 5],
    [.copy [3] .done], [.commit true false], [.change [4] false], [.rollback false],
    [.change [5] false, .change [6] true], [.copy [7] .done]]

end FastPg.Pgcore
