import FastPg.Lib.Transition
import Mathlib.Tactic.Common

/-! # The pgcore lane and the row locks

Every command of every session runs inside one lane. A row lock is taken inside
the lane but outlives it until the transaction ends, and ending a transaction
needs the lane again. The model keeps who holds the lane, who owns each row
mutex, and how far the running command has come.
-/

namespace FastPg.Pgcore

open Transition List Option

abbrev SessionId := Nat

/-- What a row mutex is found by; row id 0 is never locked. -/
structure RowKey where
  relid : Nat
  rowId : Nat
  deriving DecidableEq, Repr

/-- The transaction block of a session, as far as locks depend on it. -/
inductive Block where
  | idle
  | inProgress
  | aborted
  deriving DecidableEq, Repr

/-- The block after a command that raised an error. -/
def Block.abort : Block → Block
  | .idle => .idle
  | .inProgress | .aborted => .aborted

/-- The commands a session sends. A statement carries the rows it locks, in
    order and up to its failure, if it fails. -/
inductive Command where
  | begin
  | commit (chain : Bool)
  | rollback (chain : Bool)
  | savepoint
  | releaseSavepoint
  | rollbackToSavepoint
  | statement (rows : List RowKey) (fails : Bool)
  deriving DecidableEq, Repr

namespace Command

/-- Whether the command raises an error in the given block. -/
def fails (block : Block) : Command → Bool
  | begin => block = .aborted
  | commit chain => chain && block = .idle
  | rollback chain => chain && block = .idle
  | savepoint => block ≠ .inProgress
  | releaseSavepoint => block ≠ .inProgress
  | rollbackToSavepoint => block = .idle
  | statement _ fails => block = .aborted || fails

/-- The rows the command locks; an aborted block rejects statements unread. -/
def requests (block : Block) : Command → List RowKey
  | statement rows _ => if block = .aborted then [] else rows
  | _ => []

/-- The block after the command succeeded. -/
def next (block : Block) : Command → Block
  | begin => .inProgress
  | commit chain => if chain then .inProgress else .idle
  | rollback chain => if chain then .inProgress else .idle
  | rollbackToSavepoint => .inProgress
  | savepoint | releaseSavepoint | statement .. => block

/-- Whether the command ends a transaction. -/
def ends : Command → Bool
  | commit _ | rollback _ => true
  | _ => false

/-- The block after the command. -/
def after (block : Block) (command : Command) : Block :=
  if command.fails block then block.abort else command.next block

/-- Whether the row locks are released with the command: on an error, at the
    end of a transaction, and outside a block. -/
def unlocks (block : Block) (command : Command) : Bool :=
  command.fails block || command.ends || command.after block = .idle

end Command

structure Session where
  /-- Commands not yet completed, the running one first. -/
  work : List Command
  block : Block
  /-- `fastpg_mem_held_row_locks` -/
  held : List RowKey
  /-- Locks the running command has still to take. -/
  pending : List RowKey

structure Server where
  /-- `PGCORE_LANE_LOCK` -/
  lane : Option SessionId
  /-- The row mutexes. -/
  owner : RowKey → Option SessionId
  sessions : SessionId → Session

inductive Event where
  /-- `enter_pgcore_lane` -/
  | enter (sid : SessionId)
  /-- `fastpg_mem_acquire_row_lock` for the next row of the running command. -/
  | acquire (sid : SessionId)
  /-- `fastpg_pgcore_finish_postgres_catalog_command`, or its abort, and the
      drop of the lane guard. -/
  | finish (sid : SessionId)
  deriving DecidableEq, Repr

def Event.sid : Event → SessionId
  | enter sid | acquire sid | finish sid => sid

namespace Server

def start (work : SessionId → List Command) : Server where
  lane := none
  owner := fun _ => none
  sessions := fun sid => ⟨work sid, .idle, [], []⟩

def setSession (server : Server) (sid : SessionId) (session : Session) : Server :=
  { server with sessions := fun other => if other = sid then session else server.sessions other }

def enter (server : Server) (sid : SessionId) : Option Server :=
  match server.lane, (server.sessions sid).work with
  | none, command :: _ =>
    let session := server.sessions sid
    some { server.setSession sid { session with pending := command.requests session.block } with
      lane := some sid }
  | _, _ => none

/-- Waiting for a mutex is a step that cannot be taken yet. -/
def acquire (server : Server) (sid : SessionId) : Option Server :=
  let session := server.sessions sid
  if server.lane ≠ some sid then none
  else match session.pending with
    | [] => none
    | row :: rest =>
      if row.rowId = 0 ∨ row ∈ session.held then
        some (server.setSession sid { session with pending := rest })
      else if server.owner row = none then
        some { server.setSession sid
            { session with pending := rest, held := session.held ++ [row] } with
          owner := fun other => if other = row then some sid else server.owner other }
      else none

/-- `fastpg_mem_release_row_locks`. -/
def release (server : Server) (sid : SessionId) : Server :=
  let session := server.sessions sid
  { server.setSession sid { session with held := [] } with
    owner := fun row => if row ∈ session.held then none else server.owner row }

/-- Complete the running command and leave the lane. -/
def finish (server : Server) (sid : SessionId) : Option Server :=
  let session := server.sessions sid
  if server.lane ≠ some sid then none
  else match session.pending, session.work with
    | [], command :: rest =>
      let server := if command.unlocks session.block then server.release sid else server
      some { server.setSession sid { server.sessions sid with
          work := rest, block := command.after session.block } with
        lane := none }
    | _, _ => none

end Server

def step (server : Server) : Event → Option Server
  | .enter sid => server.enter sid
  | .acquire sid => server.acquire sid
  | .finish sid => server.finish sid

/-- The session in the lane waits for a row whose mutex another session owns. -/
def Server.Waits (server : Server) : Prop :=
  ∃ sid row rest other, server.lane = some sid ∧ (server.sessions sid).pending = row :: rest ∧
    row.rowId ≠ 0 ∧ server.owner row = some other ∧ other ≠ sid

/-- A session has work left. -/
def Server.Busy (server : Server) : Prop := ∃ sid, (server.sessions sid).work ≠ []

/-- A session with work left can take a step. -/
def Server.Progresses (server : Server) : Prop :=
  ∃ event next, (server.sessions event.sid).work ≠ [] ∧ step server event = some next

/-! ## What one step does -/

/-- The steps, with what each one needs. -/
inductive Turn (server : Server) : Event → Server → Prop where
  | enter {sid : SessionId} {command : Command} {rest : List Command}
      (free : server.lane = none) (work : (server.sessions sid).work = command :: rest) :
      Turn server (.enter sid) { server.setSession sid { server.sessions sid with
          pending := command.requests (server.sessions sid).block } with
        lane := some sid }
  | skip {sid : SessionId} {row : RowKey} {rest : List RowKey}
      (inside : server.lane = some sid) (pending : (server.sessions sid).pending = row :: rest)
      (spared : row.rowId = 0 ∨ row ∈ (server.sessions sid).held) :
      Turn server (.acquire sid)
        (server.setSession sid { server.sessions sid with pending := rest })
  | lock {sid : SessionId} {row : RowKey} {rest : List RowKey}
      (inside : server.lane = some sid) (pending : (server.sessions sid).pending = row :: rest)
      (free : server.owner row = none) :
      Turn server (.acquire sid) { server.setSession sid { server.sessions sid with
          pending := rest, held := (server.sessions sid).held ++ [row] } with
        owner := fun other => if other = row then some sid else server.owner other }
  | keep {sid : SessionId} {command : Command} {rest : List Command}
      (inside : server.lane = some sid) (work : (server.sessions sid).work = command :: rest)
      (kept : command.unlocks (server.sessions sid).block = false) :
      Turn server (.finish sid) { server.setSession sid { server.sessions sid with
          work := rest, block := command.after (server.sessions sid).block } with
        lane := none }
  | release {sid : SessionId} {command : Command} {rest : List Command}
      (inside : server.lane = some sid) (work : (server.sessions sid).work = command :: rest) :
      Turn server (.finish sid) { (server.release sid).setSession sid
          { (server.release sid).sessions sid with
            work := rest, block := command.after (server.sessions sid).block } with
        lane := none }

variable {server : Server} {event : Event} {work : SessionId → List Command}

@[simp] theorem Server.setSession_self (server : Server) (sid : SessionId) (session : Session) :
    (server.setSession sid session).sessions sid = session := if_pos rfl

@[simp] theorem Server.setSession_owner (server : Server) (sid : SessionId) (session : Session) :
    (server.setSession sid session).owner = server.owner := rfl

@[simp] theorem Server.setSession_lane (server : Server) (sid : SessionId) (session : Session) :
    (server.setSession sid session).lane = server.lane := rfl

variable {next : Server}

theorem step_turn (h : step server event = some next) :
    Turn server event next := by
  cases event with
  | enter sid =>
    simp only [step, Server.enter] at h
    split at h
    next free work =>
      cases h
      exact .enter free work
    next => cases h
  | acquire sid =>
    simp only [step, Server.acquire] at h
    split at h
    · cases h
    next inside =>
      have inside := not_not.mp inside
      split at h
      · cases h
      next pending =>
        split at h
        next spared =>
          cases h
          exact .skip inside pending spared
        next =>
          split at h
          next free =>
            cases h
            exact .lock inside pending free
          next => cases h
  | finish sid =>
    simp only [step, Server.finish] at h
    split at h
    · cases h
    next inside =>
      have inside := not_not.mp inside
      split at h
      next command rest pending work =>
        cases h
        cases unlocks : command.unlocks (server.sessions sid).block with
        | true => exact .release inside work
        | false => exact .keep inside work unlocks
      next => cases h

/-! ## Progress -/

/-- What holds in every run: the session in the lane runs a command, and the
    owner of a row mutex is the session that remembers it. -/
structure Consistent (server : Server) : Prop where
  running : ∀ sid, server.lane = some sid → (server.sessions sid).work ≠ []
  held : ∀ row sid, server.owner row = some sid ↔ row ∈ (server.sessions sid).held

theorem start_consistent (work : SessionId → List Command) : Consistent (.start work) :=
  ⟨fun _ inside => (by cases inside), fun _ _ => ⟨fun owned => (by cases owned), fun mem => (by cases mem)⟩⟩

theorem Turn.consistent (turn : Turn server event next) (before : Consistent server) :
    Consistent next := by
  obtain ⟨running, held⟩ := before
  cases turn with
  | enter free work => constructor <;> grind [Server.setSession]
  | skip inside pending spared => constructor <;> grind [Server.setSession]
  | lock inside pending free => constructor <;> grind [Server.setSession]
  | keep inside work => constructor <;> grind [Server.setSession]
  | release inside work => constructor <;> grind [Server.setSession, Server.release]

/-- Without contention the session in the lane is never blocked. -/
def Server.Unblocked (server : Server) : Prop :=
  ∀ sid, server.lane = some sid → ∀ row ∈ (server.sessions sid).pending, row.rowId ≠ 0 →
    ∀ other, server.owner row = some other → other = sid

/-- A command may enter the lane if no other session owns a row it locks. -/
def Uncontended (server : Server) (event : Event) : Prop :=
  ∀ sid command rest, event = .enter sid → (server.sessions sid).work = command :: rest →
    ∀ row ∈ command.requests (server.sessions sid).block, row.rowId ≠ 0 →
      ∀ other, server.owner row = some other → other = sid

theorem Turn.unblocked (turn : Turn server event next) (uncontended : Uncontended server event)
    (before : server.Unblocked) : next.Unblocked := by
  cases turn with
  | @enter sid command rest free work =>
    intro other inside
    cases inside
    simpa using uncontended sid command rest rfl work
  | @skip sid row rest inside pending spared =>
    intro other inside' later mem
    have same : other = sid := by simpa [inside, eq_comm] using inside'
    subst same
    have listed : later ∈ (server.sessions other).pending := by
      rw [pending]
      exact mem_cons_of_mem _ (by simpa using mem)
    exact before other inside later listed
  | @lock sid row rest inside pending free =>
    intro other inside' later mem real owner owned
    have same : other = sid := by simpa [inside, eq_comm] using inside'
    subst same
    have listed : later ∈ (server.sessions other).pending := by
      rw [pending]
      exact mem_cons_of_mem _ (by simpa using mem)
    -- A row the command names twice is its own by now.
    by_cases again : later = row
    · simpa [again, eq_comm] using owned
    · exact before other inside later listed real owner (by simpa [again] using owned)
  | keep | release => exact fun _ inside => by cases inside

/-- In a consistent state the server stands still exactly while the session in
    the lane waits for a row of another session. -/
theorem Consistent.progresses_iff (consistent : Consistent server)
    (busy : server.Busy) : server.Progresses ↔ ¬ server.Waits := by
  constructor
  · rintro ⟨event, next, -, taken⟩ ⟨sid, row, rest, other, inside, pending, real, owned, ne⟩
    have foreign : row ∉ (server.sessions sid).held := by
      rw [← consistent.held, owned]
      exact fun same => ne (some.inj same)
    cases step_turn taken with
    | enter free => simp [inside] at free
    | skip lane later spared | lock lane later spared => grind
    | keep lane | release lane =>
      -- The running command still has a lock to take.
      simp only [step, Server.finish] at taken
      grind
  · intro free
    cases lane : server.lane with
    | none =>
      obtain ⟨sid, work⟩ := busy
      obtain ⟨command, rest, next⟩ := exists_cons_of_ne_nil work
      have taken : (step server (.enter sid)).isSome := by simp [step, Server.enter, lane, next]
      obtain ⟨after, entered⟩ := isSome_iff_exists.mp taken
      exact ⟨.enter sid, after, work, entered⟩
    | some sid =>
      have work := consistent.running sid lane
      obtain ⟨command, tail, next⟩ := exists_cons_of_ne_nil work
      cases pending : (server.sessions sid).pending with
      | nil =>
        have taken : (step server (.finish sid)).isSome := by
          simp [step, Server.finish, lane, pending, next]
        obtain ⟨after, finished⟩ := isSome_iff_exists.mp taken
        exact ⟨.finish sid, after, work, finished⟩
      | cons row rest =>
        have passable : (row.rowId = 0 ∨ row ∈ (server.sessions sid).held) ∨
            server.owner row = none := by
          cases owned : server.owner row with
          | none => exact .inr rfl
          | some other =>
            refine .inl (or_iff_not_imp_left.mpr fun real => ?_)
            rw [← consistent.held, owned]
            by_contra ne
            exact free ⟨sid, row, rest, other, lane, pending, real, owned,
              fun same => ne (same ▸ rfl)⟩
        have taken : (step server (.acquire sid)).isSome := by
          simp only [step, Server.acquire, lane, pending]
          grind
        obtain ⟨after, acquired⟩ := isSome_iff_exists.mp taken
        exact ⟨.acquire sid, after, work, acquired⟩

theorem reaches_consistent {guard : Server → Event → Prop} (reached : Reaches step guard (.start work) server) : Consistent server :=
  reached.invariant (start_consistent work) fun _ _ _ consistent _ taken =>
    (step_turn taken).consistent consistent

theorem reaches_unblocked
    (reached : Reaches step Uncontended (.start work) server) : server.Unblocked :=
  reached.invariant (fun _ inside => by cases inside) fun _ _ _ unblocked uncontended taken =>
    (step_turn taken).unblocked uncontended unblocked

/-- `Uncontended`, as a check. -/
def uncontended (server : Server) : Event → Bool
  | .enter sid => (server.sessions sid).work.head?.all fun command =>
    (command.requests (server.sessions sid).block).all fun row =>
      row.rowId = 0 || server.owner row = none || server.owner row = some sid
  | _ => true

theorem uncontended_sound
    (checked : uncontended server event = true) : Uncontended server event := by
  rintro sid command rest rfl work row mem real other owned
  simp only [uncontended, work, List.head?_cons, Option.all_some, List.all_eq_true] at checked
  simpa [real, owned] using checked row mem

/-- Whether each transaction of a session locks at most one row; `row` is the
    one the current transaction has locked. -/
def oneRow (block : Block) (row : Option RowKey) : List Command → Bool
  | [] => true
  | command :: rest =>
    let wanted := command.requests block
    let row := row.or wanted.head?
    wanted.all (fun other => row = some other) &&
      oneRow (command.after block) (if command.unlocks block then none else row) rest

/-- Two sessions that update one row, the first of them in a block. -/
def sameRow : SessionId → List Command
  | 1 => [.begin, .statement [⟨7, 1⟩] false, .commit false]
  | 2 => [.statement [⟨7, 1⟩] false]
  | _ => []

/-- The first session has updated the row and its block is still open. -/
def firstUpdate : List Event := [.enter 1, .finish 1, .enter 1, .acquire 1, .finish 1]

def Command.isStatement : Command → Bool
  | .statement .. => true
  | _ => false

/-- Outside the lane nobody keeps a row lock. -/
structure Autocommits (server : Server) : Prop where
  idle : ∀ sid, (server.sessions sid).block = .idle
  work : ∀ sid, ∀ command ∈ (server.sessions sid).work, command.isStatement = true
  held : ∀ sid, server.lane ≠ some sid → (server.sessions sid).held = []

theorem statement_unlocks {command : Command} (statement : command.isStatement = true) :
    command.after .idle = .idle ∧ command.unlocks .idle = true := by
  cases command with
  | statement rows fails => cases fails <;> exact ⟨rfl, rfl⟩
  | _ => cases statement

theorem Turn.autocommits (turn : Turn server event next) (before : Autocommits server) :
    Autocommits next := by
  obtain ⟨idle, work, held⟩ := before
  cases turn with
  | enter free next => constructor <;> grind [Server.setSession]
  | skip inside pending spared => constructor <;> grind [Server.setSession]
  | lock inside pending free => constructor <;> grind [Server.setSession]
  | @keep sid command rest inside next kept =>
    have statement := work sid command (next ▸ mem_cons_self ..)
    rw [idle sid, (statement_unlocks statement).2] at kept
    cases kept
  | @release sid command rest inside next =>
    have statement := work sid command (next ▸ mem_cons_self ..)
    have ended := (statement_unlocks statement).1
    constructor <;> grind [Server.setSession, Server.release]

/-- Outside the lane row locks belong to open blocks. -/
def Server.LocksInBlocks (server : Server) : Prop :=
  ∀ sid, server.lane ≠ some sid → (server.sessions sid).held ≠ [] →
    (server.sessions sid).block = .inProgress

theorem Command.after_of_kept {command : Command} {block : Block}
    (kept : command.unlocks block = false) : command.after block = .inProgress := by
  cases command <;> cases block <;>
    grind [Command.unlocks, Command.after, Command.fails, Command.next, Command.ends]

theorem Turn.locksInBlocks (turn : Turn server event next) (before : server.LocksInBlocks) :
    next.LocksInBlocks := by
  intro sid outside held
  cases turn with
  | enter | skip | lock => grind [Server.setSession, Server.LocksInBlocks]
  | keep inside _ kept =>
    have := Command.after_of_kept kept
    grind [Server.setSession, Server.LocksInBlocks]
  | release => grind [Server.setSession, Server.release, Server.LocksInBlocks]

/-- The event does not end the session's transaction, nor is it an error in it. -/
def KeepsLocks (sid : SessionId) (server : Server) (event : Event) : Prop :=
  event = .finish sid → ∀ command ∈ (server.sessions sid).work.head?,
    command.unlocks (server.sessions sid).block = false

theorem step_held {sid : SessionId} (keeps : KeepsLocks sid server event)
    (taken : step server event = some next) {row : RowKey}
    (held : row ∈ (server.sessions sid).held) : row ∈ (next.sessions sid).held := by
  cases event with
  | enter | acquire => cases step_turn taken <;> grind [Server.setSession]
  | finish other =>
    simp only [step, Server.finish] at taken
    grind [KeepsLocks, Server.setSession, Server.release]

/-- In every interleaving a locked row is locked by one session, which is in the
    lane or in a block that has not failed. It stays the only one until its
    transaction ends or fails. -/
theorem row_locks_last (reached : Reaches step free (.start work) server) {sid : SessionId}
    {row : RowKey} (held : row ∈ (server.sessions sid).held) :
    (server.lane = some sid ∨ (server.sessions sid).block = .inProgress) ∧
      ∀ later, Reaches step (KeepsLocks sid) server later → ∀ other,
        row ∈ (later.sessions other).held ↔ other = sid := by
  constructor
  · have blocks : server.LocksInBlocks :=
      reached.invariant (fun _ _ some => absurd rfl some) fun _ _ _ before _ taken =>
        (step_turn taken).locksInBlocks before
    by_cases inside : server.lane = some sid
    · exact .inl inside
    · exact .inr (blocks sid inside (ne_nil_of_mem held))
  · intro later run other
    have still : row ∈ (later.sessions sid).held := by
      induction run with
      | refl => exact held
      | tail _ keeps taken ih => exact step_held keeps taken ih
    have consistent : Consistent later :=
      run.invariant (reaches_consistent reached) fun _ _ _ before _ taken =>
        (step_turn taken).consistent before
    rw [← consistent.held] at still ⊢
    rw [still, some_inj, eq_comm]

theorem reaches_of_run {events : List Event} (ran : run step (.start work) events = some server)
    (admitted : admits step (fun _ _ => true) (.start work) events = true) :
    Reaches step free (.start work) server :=
  .of_run (fun _ _ _ _ _ _ => trivial) (fun _ _ _ _ => trivial) .refl trivial admitted ran

/-- The row of a block that is still open, after its command has left the lane. -/
theorem row_locks_last_firstUpdate :
    ∃ server, Reaches step free (.start sameRow) server ∧
      (server.sessions 1).block = .inProgress ∧ ⟨7, 1⟩ ∈ (server.sessions 1).held ∧
      ⟨7, 1⟩ ∉ (server.sessions 2).held := by
  have checked : (run step (.start sameRow) firstUpdate).any (fun server =>
      server.lane = none && (server.sessions 1).held = [⟨7, 1⟩]) = true := by
    decide
  obtain ⟨server, ran, facts⟩ := (Option.any_eq_true _ _).mp checked
  simp only [Bool.and_eq_true, decide_eq_true_eq] at facts
  have reached := reaches_of_run ran (by decide)
  obtain ⟨inBlock, only⟩ := row_locks_last reached (facts.2 ▸ mem_cons_self ..)
  exact ⟨server, reached, inBlock.resolve_left (by simp [facts.1]), (only _ .refl 1).mpr rfl,
    fun other => absurd ((only _ .refl 2).mp other) (by decide)⟩

end FastPg.Pgcore
