import Mathlib
import FastPg.Lib.Transition
import FastPg.Storage.Depth

/-! # Savepoints by name

With the catalog in Rust, the savepoint statements are mapped to calls that open,
merge and drop the innermost level of the session, and the name is not looked at.
It is compared with what SQL asks for: the levels down to the most recent active
savepoint of that name are merged or dropped, and other names are refused.
-/

namespace FastPg.Storage

open List Option

/-- A statement inside a transaction. -/
inductive Statement where
  | savepoint (name : String)
  | release (name : String)
  | rollbackTo (name : String)
  | change (call : Call)

namespace StorageState

variable {catalog : Catalog} (state : StorageState) (sid : SessionId)

def levels : Nat := (state.sessions sid).stack.length

def change (catalog : Catalog) (call : Call) : StorageState :=
  match call.onRelation catalog with
  | some (relid, f) => state.putLocal sid relid (f (state.localView sid relid))
  | none => state

/-- `fastpg_pgcore_execute_transaction_stmt` for the savepoint statements. It never fails. -/
def execute (catalog : Catalog) : Statement → StorageState
  | .savepoint _ => state.subxactBegin sid
  | .release _ => state.subxactCommit sid
  | .rollbackTo _ => (state.subxactAbort sid).subxactBegin sid
  | .change call => state.change sid catalog call

theorem levels_setSession (session : SessionStorage) :
    (state.setSession sid session).levels sid = session.stack.length := by
  simp [levels, setSession]

theorem levels_subxactBegin (open_ : 0 < state.levels sid) :
    (state.subxactBegin sid).levels sid = state.levels sid + 1 := by
  rw [subxactBegin, levels_setSession, length_cons, SessionStorage.ensureTransaction]
  rw [levels] at open_ ⊢
  split
  next none => simp [none] at open_
  next => rfl

theorem levels_subxactCommit (nested : 1 < state.levels sid) :
    (state.subxactCommit sid).levels sid = state.levels sid - 1 := by
  fun_cases subxactCommit state sid with
  | case1 _ _ _ _ stack =>
    rw [levels_setSession, levels, stack]
    rfl
  | case2 _ flat =>
    rw [levels] at nested
    match stack : (state.sessions sid).stack with
    | [] | [_] => simp [stack] at nested
    | _ :: _ :: _ => exact absurd stack (flat _ _ _)

theorem levels_subxactAbort (nested : 1 < state.levels sid) :
    (state.subxactAbort sid).levels sid = state.levels sid - 1 := by
  have same : (state.subxactAbort sid).levels sid = (state.subxactCommit sid).levels sid := by
    rw [levels, levels, subxactAbort, subxactCommit]
    split <;> simp [setSession]
  rw [same, levels_subxactCommit state sid nested]

theorem length_writeBack (relid : Relid) (levels : List TransactionOverlay) (overlays : Overlays) :
    (writeBack relid levels overlays).length = overlays.length := by
  fun_induction writeBack relid levels overlays <;> simp_all

theorem levels_change (open_ : 0 < state.levels sid) (call : Call) :
    (state.change sid catalog call).levels sid = state.levels sid := by
  fun_cases change state sid catalog call with
  | case1 relid f on =>
    have depth := Call.onRelation_depth on (state.localView sid relid)
    have before : (state.localView sid relid).overlays.length = state.levels sid := length_map ..
    have after : (state.putLocal sid relid (f (state.localView sid relid))).levels sid =
        (f (state.localView sid relid)).overlays.length :=
      (levels_setSession _ sid _).trans (length_writeBack ..)
    rw [after]
    rcases depth with same | ⟨none, -⟩
    · exact same.trans before
    · omega
  | case2 => rfl

theorem levels_iterate {f : StorageState → StorageState}
    (drops : ∀ state : StorageState, 1 < state.levels sid → (f state).levels sid = state.levels sid - 1)
    {n : Nat} (deep : n < state.levels sid) : (f^[n] state).levels sid = state.levels sid - n := by
  induction n generalizing state with
  | zero => rfl
  | succ n ih =>
    have one := drops state (by omega)
    rw [Function.iterate_succ_apply, ih (f state) (by omega), one]
    omega

end StorageState

/-- A transaction with its active savepoints, the innermost first. -/
structure Named where
  state : StorageState
  active : List String

namespace Named

variable {catalog : Catalog} {sid : SessionId} {named : Named}

/-- What SQL asks of a statement. `RELEASE` merges and `ROLLBACK TO` drops every level
    down to the savepoint that is named, which the latter opens again; `none` is an
    error, which changes nothing. -/
def step (catalog : Catalog) (sid : SessionId) (named : Named) : Statement → Option Named
  | .savepoint name => some ⟨named.state.subxactBegin sid, name :: named.active⟩
  | .release name =>
    if name ∈ named.active then
      let levels := named.active.idxOf name + 1
      some ⟨(StorageState.subxactCommit · sid)^[levels] named.state, named.active.drop levels⟩
    else none
  | .rollbackTo name =>
    if name ∈ named.active then
      let levels := named.active.idxOf name + 1
      some ⟨((StorageState.subxactAbort · sid)^[levels] named.state).subxactBegin sid,
        name :: named.active.drop levels⟩
    else none
  | .change call => some ⟨named.state.change sid catalog call, named.active⟩

/-- The statement names the innermost savepoint, if it names one. -/
def Innermost (named : Named) : Statement → Prop
  | .release name | .rollbackTo name => named.active.head? = some name
  | .savepoint _ | .change _ => True

/-- One level for each active savepoint, and the transaction's own. -/
def Matched (sid : SessionId) (named : Named) : Prop :=
  named.state.levels sid = named.active.length + 1

theorem head?_iff {active : List String} {name : String} :
    active.head? = some name ↔ name ∈ active ∧ active.idxOf name = 0 := by
  cases active with
  | nil => simp
  | cons first rest => by_cases same : first = name <;> simp [same]

/-- The levels left by a call that drops one, made once or down to a savepoint. -/
theorem Matched.levels {f : StorageState → StorageState}
    (drops : ∀ state : StorageState, 1 < state.levels sid → (f state).levels sid = state.levels sid - 1)
    (matched : named.Matched sid) {name : String} (mem : name ∈ named.active) :
    (f named.state).levels sid = named.active.length ∧
      (f^[named.active.idxOf name + 1] named.state).levels sid =
        named.active.length - named.active.idxOf name := by
  have index := idxOf_lt_length_of_mem mem
  rw [Matched] at matched
  constructor
  · rw [drops _ (by omega), matched]
    rfl
  · rw [StorageState.levels_iterate _ sid drops (by omega), matched]
    omega

theorem Matched.step {statement : Statement} {next : Named} (matched : named.Matched sid)
    (stepped : named.step catalog sid statement = some next) : next.Matched sid := by
  have deep : 0 < named.state.levels sid := by rw [matched]; omega
  cases statement with
  | savepoint name =>
    cases stepped
    rw [Matched, StorageState.levels_subxactBegin _ sid deep, matched]
    rfl
  | change call =>
    cases stepped
    rw [Matched, StorageState.levels_change _ sid deep, matched]
  | release name =>
    obtain ⟨mem, ⟨⟩⟩ := ite_none_right_eq_some.mp stepped
    have left := matched.levels (fun state => state.levels_subxactCommit sid) mem
    have index := idxOf_lt_length_of_mem mem
    rw [Matched, left.2, length_drop]
    omega
  | rollbackTo name =>
    obtain ⟨mem, ⟨⟩⟩ := ite_none_right_eq_some.mp stepped
    have left := matched.levels (fun state => state.levels_subxactAbort sid) mem
    have index := idxOf_lt_length_of_mem mem
    rw [Matched, StorageState.levels_subxactBegin _ sid (by omega), left.2, length_cons,
      length_drop]
    omega

/-- The code does what SQL asks of one statement just if it names the innermost savepoint. -/
theorem step_execute_iff (matched : named.Matched sid) (statement : Statement) :
    (∃ next, named.step catalog sid statement = some next ∧
      next.state = named.state.execute sid catalog statement) ↔ named.Innermost statement := by
  cases statement with
  | savepoint name => exact iff_of_true ⟨_, rfl, rfl⟩ trivial
  | change call => exact iff_of_true ⟨_, rfl, rfl⟩ trivial
  | release name =>
    rw [Innermost, head?_iff]
    constructor
    · rintro ⟨next, stepped, same⟩
      obtain ⟨mem, ⟨⟩⟩ := ite_none_right_eq_some.mp stepped
      have left := matched.levels (fun state => state.levels_subxactCommit sid) mem
      have index := idxOf_lt_length_of_mem mem
      have equal := (congrArg (StorageState.levels · sid) same).symm.trans left.2
      have once := left.1.symm.trans equal
      exact ⟨mem, by omega⟩
    · rintro ⟨mem, first⟩
      exact ⟨_, if_pos mem, by rw [first]; rfl⟩
  | rollbackTo name =>
    rw [Innermost, head?_iff]
    constructor
    · rintro ⟨next, stepped, same⟩
      obtain ⟨mem, ⟨⟩⟩ := ite_none_right_eq_some.mp stepped
      have left := matched.levels (fun state => state.levels_subxactAbort sid) mem
      have index := idxOf_lt_length_of_mem mem
      have equal := congrArg (StorageState.levels · sid) same
      simp only [StorageState.execute] at equal
      rw [StorageState.levels_subxactBegin _ sid (by omega),
        StorageState.levels_subxactBegin _ sid (by omega)] at equal
      exact ⟨mem, by omega⟩
    · rintro ⟨mem, first⟩
      exact ⟨_, if_pos mem, by rw [first]; rfl⟩

/-- Every statement of a run does what SQL asks of it. -/
def Honoured (catalog : Catalog) (sid : SessionId) : Named → List Statement → Prop
  | _, [] => True
  | named, statement :: rest => ∃ next, named.step catalog sid statement = some next ∧
      next.state = named.state.execute sid catalog statement ∧ next.Honoured catalog sid rest

def InnermostRun (catalog : Catalog) (sid : SessionId) : Named → List Statement → Prop
  | _, [] => True
  | named, statement :: rest => named.Innermost statement ∧
      ∀ next, named.step catalog sid statement = some next → next.InnermostRun catalog sid rest

theorem honoured_iff_of_matched (matched : named.Matched sid) (statements : List Statement) :
    named.Honoured catalog sid statements ↔ named.InnermostRun catalog sid statements := by
  induction statements generalizing named with
  | nil => exact Iff.rfl
  | cons statement rest ih =>
    constructor
    · rintro ⟨next, stepped, same, later⟩
      refine ⟨(step_execute_iff matched statement).mp ⟨next, stepped, same⟩, ?_⟩
      intro next' stepped'
      cases stepped.symm.trans stepped'
      exact (ih (matched.step stepped)).mp later
    · rintro ⟨innermost, later⟩
      obtain ⟨next, stepped, same⟩ := (step_execute_iff matched statement).mpr innermost
      exact ⟨next, stepped, same, (ih (matched.step stepped)).mpr (later next stepped)⟩

/-- Inside a transaction, savepoint names are honoured exactly in the runs whose
    `RELEASE` and `ROLLBACK TO` statements name the innermost active savepoint. -/
theorem names_honoured_iff {state : StorageState} (begun : state.levels sid = 1)
    (statements : List Statement) :
    Honoured catalog sid ⟨state, []⟩ statements ↔
      InnermostRun catalog sid ⟨state, []⟩ statements := by
  have matched : Matched sid ⟨state, []⟩ := begun
  exact honoured_iff_of_matched matched statements

def begun : StorageState := StorageState.initial.ensureTransaction 1

def noIndexes : Catalog := fun _ => ⟨[], none⟩

theorem names_honoured_innermost : begun.levels 1 = 1 ∧ Honoured noIndexes 1 ⟨begun, []⟩
    [.savepoint "a", .savepoint "b", .release "b", .rollbackTo "a"] := by
  refine ⟨rfl, (names_honoured_iff rfl _).mpr ⟨trivial, ?_⟩⟩
  rintro _ ⟨⟩
  refine ⟨trivial, ?_⟩
  rintro _ ⟨⟩
  refine ⟨rfl, ?_⟩
  rintro _ ⟨⟩
  exact ⟨rfl, fun _ _ => trivial⟩

def insertRow : Statement := .change (.insert 7 [] .skip none false)

def outerRollback : List Statement :=
  [.savepoint "a", insertRow, .savepoint "b", insertRow, .rollbackTo "a"]

def rolledBack : StorageState :=
  outerRollback.foldl (fun state => state.execute 1 noIndexes) begun

/-- `ROLLBACK TO a` leaves a row that was inserted after the savepoint `a`, and the
    release of a name that was never used is not refused. -/
theorem names_not_honoured :
    (rolledBack.relations 7).visibleTids (rolledBack.overlays 1 7) = [⟨0, 1⟩] ∧
    (∃ named, Transition.run (step noIndexes 1) ⟨begun, []⟩ outerRollback = some named ∧
      (named.state.relations 7).visibleTids (named.state.overlays 1 7) = []) ∧
    (step noIndexes 1 ⟨begun, []⟩ (.release "c")).isNone := by
  refine ⟨by decide, ⟨_, rfl, ?_⟩, by decide⟩
  decide

end Named

end FastPg.Storage
