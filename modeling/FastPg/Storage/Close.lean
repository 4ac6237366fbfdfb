import FastPg.Lib.Transition
import FastPg.Storage.Effects

/-! # Closing a session

When a connection is closed, the engine is called for an open `COPY`, then for
the transaction the legacy engine knows of, which with the upstream catalog is
never an explicit one, and at last by the callbacks of the upstream manager as
it is forced to idle. What is left is compared with a `ROLLBACK`.
-/

namespace FastPg.Storage

open Transition List Option

/-- The calls of `QueryExecutorCloseWork::run`. `callbacks` is the number of
    open subtransactions the manager aborts before the transaction, or `none` if
    its transaction is aborted already or it has none. -/
def closeWork (copyActive : Bool) (callbacks : Option Nat) : List Call :=
  (if copyActive then [.subxactAbort, .xactAbortIfImplicit] else []) ++
    [.xactAbortIfImplicit] ++
    (match callbacks with
      | some subtransactions =>
        List.replicate subtransactions .subxactAbort ++ [.xactAbortIfImplicit]
      | none => []) ++
    -- `reset_session_state` runs a command of its own.
    [.xactCommitIfImplicit]

def close (catalog : Catalog) (state : StorageState) (sid : SessionId) (copyActive : Bool)
    (callbacks : Option Nat) : Option StorageState :=
  run (step catalog) state ((closeWork copyActive callbacks).map fun call => ⟨sid, call⟩)

/-- The other sessions find everything as after the rollback, and the closed
    session holds nothing. -/
structure RolledBack (sid : SessionId) (closed rolledBack : StorageState) : Prop where
  others : ∀ other, other ≠ sid → ∀ relid,
    closed.localView other relid = rolledBack.localView other relid
  nothing : ∀ level ∈ (closed.sessions sid).stack, level.isEmpty = true

/-- The levels of a session that the calls to abort a subtransaction leave: the
    outermost one is never among those they take. -/
def remaining (copyActive : Bool) (callbacks : Option Nat) (stack : List TransactionOverlay) :
    List TransactionOverlay :=
  stack.drop (min ((if copyActive then 1 else 0) + callbacks.getD 0) (stack.length - 1))

namespace StorageState

variable (state : StorageState) (sid : SessionId)

@[simp] theorem setSession_self : state.setSession sid (state.sessions sid) = state := by
  obtain ⟨relations, sessions⟩ := state
  simp only [setSession, StorageState.mk.injEq, true_and]
  funext other
  split
  next same => rw [same]
  next => rfl

@[simp] theorem setSession_sessions (session : SessionStorage) :
    (state.setSession sid session).sessions sid = session := if_pos rfl

/-! ## A session in an explicit transaction -/

theorem xactAbortIfImplicit_explicit (explicit : (state.sessions sid).explicitTransaction = true) :
    state.xactAbortIfImplicit sid = state := by
  simp [xactAbortIfImplicit, SessionStorage.abortEmptyImplicitTransaction, explicit]

theorem xactCommitIfImplicit_explicit (explicit : (state.sessions sid).explicitTransaction = true) :
    state.xactCommitIfImplicit sid = some state := by
  simp [xactCommitIfImplicit, SessionStorage.commitEmptyImplicitTransaction, explicit]

theorem subxactAbort_nested {top parent : TransactionOverlay} {rest : List TransactionOverlay}
    (levels : (state.sessions sid).stack = top :: parent :: rest) :
    state.subxactAbort sid =
      { state.setSession sid { state.sessions sid with stack := parent :: rest } with
        relations := fun relid => Local.rollbackOverlay (state.relations relid) (top.get relid) } := by
  simp [subxactAbort, levels]

theorem subxactAbort_flat (flat : (state.sessions sid).stack.length ≤ 1) :
    state.subxactAbort sid = state := by
  match levels : (state.sessions sid).stack with
  | [] | [_] => simp [subxactAbort, levels]
  | _ :: _ :: _ => simp [levels] at flat

end StorageState

/-- Levels were rolled back, but never the outermost one. -/
structure Pops (sid : SessionId) (count : Nat) (before after : StorageState) : Prop where
  stack : (after.sessions sid).stack =
    (before.sessions sid).stack.drop (min count ((before.sessions sid).stack.length - 1))
  explicit : (after.sessions sid).explicitTransaction = (before.sessions sid).explicitTransaction
  others : ∀ other, other ≠ sid → after.sessions other = before.sessions other
  base : ∀ relid, Local.rollbackAll (after.relations relid) (after.overlays sid relid) =
    Local.rollbackAll (before.relations relid) (before.overlays sid relid)

namespace Pops

variable {sid : SessionId} {state before mid after : StorageState}

theorem refl : Pops sid 0 state state := ⟨by simp, rfl, fun _ _ => rfl, fun _ => rfl⟩

theorem trans {first second : Nat} (one : Pops sid first before mid) (two : Pops sid second mid after) :
    Pops sid (first + second) before after where
  stack := by
    rw [two.stack, one.stack, drop_drop, length_drop]
    congr 1
    omega
  explicit := two.explicit.trans one.explicit
  others := fun other ne => (two.others other ne).trans (one.others other ne)
  base := fun relid => (two.base relid).trans (one.base relid)

theorem subxactAbort (state : StorageState) : Pops sid 1 state (state.subxactAbort sid) := by
  match levels : (state.sessions sid).stack with
  | top :: parent :: rest =>
    rw [state.subxactAbort_nested sid levels]
    refine ⟨by simp [levels], by simp, fun other ne => ?_, fun relid => ?_⟩
    · simp [StorageState.setSession, ne]
    · simp [StorageState.overlays, levels, Local.rollbackAll]
  | [] | [_] =>
    rw [state.subxactAbort_flat sid (by simp [levels])]
    exact ⟨by simp [levels], rfl, fun _ _ => rfl, fun _ => rfl⟩

/-- A rollback of everything does not mind levels that were rolled back before. -/
theorem xactAbort {count : Nat} (pops : Pops sid count before after) :
    after.xactAbort sid = before.xactAbort sid := by
  simp only [StorageState.xactAbort, StorageState.setExplicit, StorageState.rollbackAll,
    StorageState.setSession, StorageState.mk.injEq]
  refine ⟨funext pops.base, funext fun other => ?_⟩
  split
  next same => simp
  next ne => exact pops.others other ne

end Pops

/-! ## The calls of the close work -/

/-- The calls that take levels of an explicit transaction. -/
def Call.isSubxactAbort : Call → Bool
  | .subxactAbort => true
  | _ => false

/-- A call that a session without levels does not notice. -/
def Call.Unwinds (call : Call) : Prop :=
  call = .subxactAbort ∨ call = .xactAbortIfImplicit ∨ call = .xactCommitIfImplicit

variable {calls : List Call} (catalog : Catalog)

theorem closeWork_unwinds {copyActive : Bool} {callbacks : Option Nat} {call : Call}
    (mem : call ∈ closeWork copyActive callbacks) : call.Unwinds := by
  cases copyActive <;> cases callbacks <;>
    simp [closeWork] at mem <;> grind [Call.Unwinds]

theorem closeWork_count (copyActive : Bool) (callbacks : Option Nat) :
    (closeWork copyActive callbacks).countP Call.isSubxactAbort =
      (if copyActive then 1 else 0) + callbacks.getD 0 := by
  cases copyActive <;> cases callbacks <;>
    simp [closeWork, Call.isSubxactAbort, countP_cons, countP_append,
      countP_replicate, Nat.add_comm]

variable {sid : SessionId} {state : StorageState}

theorem run_explicit (unwinds : ∀ call ∈ calls, call.Unwinds)
    (explicit : (state.sessions sid).explicitTransaction = true) :
    ∃ closed, run (step catalog) state (calls.map fun call => ⟨sid, call⟩) = some closed ∧
      Pops sid (calls.countP Call.isSubxactAbort) state closed := by
  induction calls generalizing state with
  | nil => exact ⟨state, rfl, .refl⟩
  | cons call rest ih =>
    have later := fun other mem => unwinds other (.tail _ mem)
    rcases unwinds call (.head _) with rfl | rfl | rfl
    · have pops : Pops sid 1 state (state.subxactAbort sid) := .subxactAbort state
      obtain ⟨closed, ran, popped⟩ := ih later (pops.explicit.trans explicit)
      refine ⟨closed, ran, ?_⟩
      rw [countP_cons_of_pos rfl, Nat.add_comm]
      exact pops.trans popped
    · obtain ⟨closed, ran, popped⟩ := ih later explicit
      refine ⟨closed, ?_, popped⟩
      simpa [run, step, state.xactAbortIfImplicit_explicit sid explicit] using ran
    · obtain ⟨closed, ran, popped⟩ := ih later explicit
      refine ⟨closed, ?_, popped⟩
      simpa [run, step, state.xactCommitIfImplicit_explicit sid explicit] using ran

/-! ## A session outside an explicit transaction -/

theorem Local.rollbackAll_of_empty (relation : RelationStorage) {overlays : Overlays}
    (empty : ∀ overlay ∈ overlays, overlay = {}) : Local.rollbackAll relation overlays = relation := by
  induction overlays with
  | nil => rfl
  | cons overlay rest ih =>
    obtain rfl := empty overlay (mem_cons_self ..)
    exact ih fun other mem => empty other (.tail _ mem)

theorem StorageState.rollbackAll_of_isEmpty
    (empty : ∀ level ∈ (state.sessions sid).stack, level.isEmpty = true) (relid : Relid) :
    Local.rollbackAll (state.relations relid) (state.overlays sid relid) = state.relations relid := by
  apply Local.rollbackAll_of_empty
  intro overlay mem
  obtain ⟨level, open_, rfl⟩ := mem_map.mp mem
  exact TransactionOverlay.get_of_isEmpty (empty level open_) relid

/-- The state after a rollback of everything. -/
theorem StorageState.xactAbort_eq (state : StorageState) (sid : SessionId) :
    state.xactAbort sid =
      { state.setSession sid .initial with
        relations := fun relid =>
          Local.rollbackAll (state.relations relid) (state.overlays sid relid) } := by
  simp only [xactAbort, setExplicit, rollbackAll, setSession, if_true, SessionStorage.initial,
    StorageState.mk.injEq, true_and]
  funext other
  split <;> rfl

theorem StorageState.xactAbortIfImplicit_implicit
    (implicit : (state.sessions sid).explicitTransaction = false) :
    state.xactAbortIfImplicit sid = state.xactAbort sid := by
  rw [xactAbort_eq]
  cases empty : (state.sessions sid).stack.all TransactionOverlay.isEmpty with
  | true =>
    -- The shortcut drops the levels; there was nothing to roll back in them.
    have same := funext (StorageState.rollbackAll_of_isEmpty (all_eq_true.mp empty))
    simp only [xactAbortIfImplicit, SessionStorage.abortEmptyImplicitTransaction, implicit, empty,
      if_true, Bool.false_eq_true, if_false, same]
    rfl
  | false =>
    simp only [xactAbortIfImplicit, SessionStorage.abortEmptyImplicitTransaction, implicit, empty,
      Bool.false_eq_true, if_false, setSession_self, rollbackAll]
    rfl

theorem step_idle {call : Call} (unwinds : call.Unwinds) (idle : state.sessions sid = .initial) :
    step catalog state ⟨sid, call⟩ = some state := by
  have same : state.setSession sid ⟨[], false⟩ = state := by
    rw [show (⟨[], false⟩ : SessionStorage) = state.sessions sid from idle.symm]
    exact state.setSession_self sid
  rcases unwinds with rfl | rfl | rfl
  · exact congrArg some (state.subxactAbort_flat sid (by simp [idle, SessionStorage.initial]))
  · simp [step, StorageState.xactAbortIfImplicit, SessionStorage.abortEmptyImplicitTransaction,
      idle, SessionStorage.initial, same]
  · simp [step, StorageState.xactCommitIfImplicit, SessionStorage.commitEmptyImplicitTransaction,
      idle, SessionStorage.initial, same]

theorem run_idle (unwinds : ∀ call ∈ calls, call.Unwinds) (idle : state.sessions sid = .initial) :
    run (step catalog) state (calls.map fun call => ⟨sid, call⟩) = some state := by
  induction calls with
  | nil => rfl
  | cons call rest ih =>
    have taken := step_idle catalog (unwinds call (.head _)) idle
    simp only [map_cons, run, taken, bind_some]
    exact ih fun other mem => unwinds other (.tail _ mem)

theorem close_implicit (implicit : (state.sessions sid).explicitTransaction = false)
    (copyActive : Bool) (callbacks : Option Nat) :
    close catalog state sid copyActive callbacks = some (state.xactAbort sid) := by
  have idle : (state.xactAbort sid).sessions sid = .initial := by simp [state.xactAbort_eq sid]
  have aborted := StorageState.xactAbortIfImplicit_implicit implicit
  have rest : ∀ calls : List Call, (∀ call ∈ calls, call.Unwinds) →
      run (step catalog) (state.xactAbort sid) (calls.map fun call => ⟨sid, call⟩) =
        some (state.xactAbort sid) := fun calls unwinds => run_idle catalog unwinds idle
  have later := @closeWork_unwinds copyActive callbacks
  cases copyActive with
  | false =>
    refine Eq.trans ?_ (rest _ fun call mem => later (mem_of_mem_tail mem))
    simp [close, closeWork, run, step, aborted]
  | true =>
    -- The level of the `COPY` is rolled back first.
    have pops : Pops sid 1 state (state.subxactAbort sid) := .subxactAbort state
    have copyAborted := StorageState.xactAbortIfImplicit_implicit (pops.explicit.trans implicit)
    refine Eq.trans ?_ (rest _ fun call mem =>
      later (mem_of_mem_tail (mem_of_mem_tail mem)))
    simp [close, closeWork, run, step, copyAborted, pops.xactAbort]

/-- A row is committed, and a transaction that cleared its relation is left open. -/
def clearThenLeave : List Event :=
  [⟨2, .xactBegin⟩, ⟨2, .insert 7 [] .skip none false⟩, ⟨2, .xactCommit⟩,
    ⟨1, .xactBegin⟩, ⟨1, .clear 7⟩]

end FastPg.Storage
