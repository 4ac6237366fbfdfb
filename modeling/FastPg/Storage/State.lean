import FastPg.Storage.Commit

/-! # Storage shared by sessions

The state of the engine: every relation, the cached row counts and every
session with its stack of transaction levels. A step is one call of one
session; sessions interleave freely at that grain, since each call runs under
the storage lock.
-/

namespace FastPg.Storage

abbrev Relid := Nat

abbrev SessionId := Nat

abbrev Catalog := Relid → RelationCatalog

/-- One transaction level: finitely many relations have an entry. -/
structure TransactionOverlay where
  touched : List Relid
  get : Relid → RelationOverlay
  untouched : ∀ relid, relid ∉ touched → get relid = {}

namespace TransactionOverlay

def empty : TransactionOverlay := ⟨[], fun _ => {}, fun _ _ => rfl⟩

def isEmpty (overlay : TransactionOverlay) : Bool :=
  overlay.touched.all fun relid => (overlay.get relid).isEmpty

def set (overlay : TransactionOverlay) (relid : Relid) (entry : RelationOverlay) :
    TransactionOverlay where
  touched := Assoc.pushUnique overlay.touched relid
  get := fun other => if other = relid then entry else overlay.get other
  untouched := by
    intro other absent
    rw [Assoc.mem_pushUnique, not_or] at absent
    simp only [absent.2, if_false]
    exact overlay.untouched other absent.1

theorem appendFrom_default (parent : RelationOverlay) : parent.appendFrom {} = parent := by
  cases parent
  simp [RelationOverlay.appendFrom, RelationOverlay.absorbClear, Assoc.pushAll, Assoc.extend,
    RelationOverlay.mergeIndexInserts]

def appendFrom (parent child : TransactionOverlay) : TransactionOverlay where
  touched := Assoc.pushAll parent.touched child.touched
  get := fun relid => (parent.get relid).appendFrom (child.get relid)
  untouched := by
    intro relid absent
    rw [Assoc.mem_pushAll, not_or] at absent
    rw [parent.untouched relid absent.1, child.untouched relid absent.2]
    exact appendFrom_default {}

end TransactionOverlay

/-- A session's open levels, innermost first. Scan handles are kept apart. -/
structure SessionStorage where
  stack : List TransactionOverlay
  explicitTransaction : Bool

namespace SessionStorage

def initial : SessionStorage := ⟨[], false⟩

def ensureTransaction (session : SessionStorage) : SessionStorage :=
  match session.stack with
  | [] => { session with stack := [.empty] }
  | _ :: _ => session

/-- `commit_empty_implicit_transaction`: whether nothing is left to publish.
    Only the innermost level is looked at. -/
def commitEmptyImplicitTransaction (session : SessionStorage) : SessionStorage × Bool :=
  if session.explicitTransaction then (session, true)
  else match session.stack with
    | [] => (session, true)
    | top :: rest => if top.isEmpty then ({ session with stack := rest }, true) else (session, false)

/-- `abort_empty_implicit_transaction`. -/
def abortEmptyImplicitTransaction (session : SessionStorage) : SessionStorage × Bool :=
  if session.explicitTransaction then (session, true)
  else if session.stack.all TransactionOverlay.isEmpty then ({ session with stack := [] }, true)
  else (session, false)

end SessionStorage

structure StorageState where
  relations : Relid → RelationStorage
  sessions : SessionId → SessionStorage

namespace StorageState

def initial : StorageState := ⟨fun _ => .default, fun _ => .initial⟩

/-- The levels of a session for one relation. -/
def overlays (state : StorageState) (sid : SessionId) (relid : Relid) : Overlays :=
  (state.sessions sid).stack.map fun level => level.get relid

/-- What an operation of a session reaches of a relation. -/
def localView (state : StorageState) (sid : SessionId) (relid : Relid) : Local :=
  ⟨state.relations relid, state.overlays sid relid⟩

def setSession (state : StorageState) (sid : SessionId) (session : SessionStorage) : StorageState :=
  { state with sessions := fun other => if other = sid then session else state.sessions other }

/-- Store changed levels of a relation; a started transaction adds a level. -/
def writeBack (relid : Relid) : List TransactionOverlay → Overlays → List TransactionOverlay
  | _, [] => []
  | [], overlay :: rest => TransactionOverlay.empty.set relid overlay :: writeBack relid [] rest
  | level :: levels, overlay :: rest => level.set relid overlay :: writeBack relid levels rest

/-- Store the outcome of an operation of a session on a relation. -/
def putLocal (state : StorageState) (sid : SessionId) (relid : Relid) (here : Local) :
    StorageState :=
  let session := state.sessions sid
  { state.setSession sid { session with stack := writeBack relid session.stack here.overlays } with
    relations := fun other => if other = relid then here.relation else state.relations other }

/-- Every relation some level of the session has an entry for. -/
def touchedRelids (session : SessionStorage) : List Relid :=
  session.stack.flatMap TransactionOverlay.touched

/-- Commit every level of a session; `none` where the commit stops the server. -/
def commitAll (state : StorageState) (sid : SessionId) : Option StorageState :=
  let session := state.sessions sid
  if (touchedRelids session).all fun relid => (state.localView sid relid).commitAll.isSome then
    some { state.setSession sid { session with stack := [] } with
      relations := fun relid =>
        ((state.localView sid relid).commitAll).getD (state.relations relid) }
  else none

/-- Roll back every level of a session. -/
def rollbackAll (state : StorageState) (sid : SessionId) : StorageState :=
  let session := state.sessions sid
  { state.setSession sid { session with stack := [] } with
    relations := fun relid => Local.rollbackAll (state.relations relid) (state.overlays sid relid) }

def setExplicit (state : StorageState) (sid : SessionId) (explicit : Bool) : StorageState :=
  state.setSession sid { state.sessions sid with explicitTransaction := explicit }

def ensureTransaction (state : StorageState) (sid : SessionId) : StorageState :=
  state.setSession sid (state.sessions sid).ensureTransaction

/-- `xact_commit_if_implicit`: the shortcut, then the full commit. -/
def xactCommitIfImplicit (state : StorageState) (sid : SessionId) : Option StorageState :=
  let (session, done) := (state.sessions sid).commitEmptyImplicitTransaction
  let state := state.setSession sid session
  if done then some state else state.commitAll sid

/-- `xact_begin`: pending work of an implicit transaction is published first. -/
def xactBegin (state : StorageState) (sid : SessionId) : Option StorageState :=
  if (state.sessions sid).explicitTransaction then some (state.ensureTransaction sid)
  else (state.xactCommitIfImplicit sid).map fun state =>
    (state.ensureTransaction sid).setExplicit sid true

def xactCommit (state : StorageState) (sid : SessionId) : Option StorageState :=
  (state.commitAll sid).map fun state => state.setExplicit sid false

def xactAbort (state : StorageState) (sid : SessionId) : StorageState :=
  (state.rollbackAll sid).setExplicit sid false

def xactAbortIfImplicit (state : StorageState) (sid : SessionId) : StorageState :=
  let (session, done) := (state.sessions sid).abortEmptyImplicitTransaction
  let state := state.setSession sid session
  if done then state else state.rollbackAll sid

def subxactBegin (state : StorageState) (sid : SessionId) : StorageState :=
  let session := (state.sessions sid).ensureTransaction
  state.setSession sid { session with stack := .empty :: session.stack }

def subxactCommit (state : StorageState) (sid : SessionId) : StorageState :=
  let session := state.sessions sid
  match session.stack with
  | top :: parent :: rest =>
    state.setSession sid { session with stack := parent.appendFrom top :: rest }
  | _ => state

def subxactAbort (state : StorageState) (sid : SessionId) : StorageState :=
  let session := state.sessions sid
  match session.stack with
  | top :: parent :: rest =>
    { state.setSession sid { session with stack := parent :: rest } with
      relations := fun relid => Local.rollbackOverlay (state.relations relid) (top.get relid) }
  | _ => state

end StorageState

/-- A call into the engine. -/
inductive Call where
  | xactBegin
  | xactBeginImplicit
  | xactCommit
  | xactAbort
  | xactCommitIfImplicit
  | xactAbortIfImplicit
  | subxactBegin
  | subxactCommit
  | subxactAbort
  | clear (relid : Relid)
  | insert (relid : Relid) (input : RowInput) (check : UniqueCheck)
      (metadata : Option InsertMetadata) (keyed : Bool)
  | update (relid : Relid) (tid : Tid) (input : RowInput) (check : UniqueCheck) (hot : Bool)
      (metadata : Option UpdateMetadata)
  | updateHotIfPreserved (relid : Relid) (tid : Tid) (input : RowInput) (key : SingleByvalHotKey)
      (metadata : Option UpdateMetadata)
  | delete (relid : Relid) (tid : Tid) (keyed : Bool)
  | recordInvalidateMetadata (relid : Relid) (tid : Tid) (xid cid : Nat)
  | recordPrimaryKey (relid : Relid) (tid : Tid)
  | recordPrimaryKeyEntry (relid : Relid) (key : IndexKey) (tid : Tid)
  | recordIndexEntries (relid : Relid) (indexRelid : Nat) (prefixes : List IndexKey) (tid : Tid)
  | resolveTid (relid : Relid) (tid : Tid)
  | resolveUpdateTid (relid : Relid) (tid : Tid)
  | primaryKeyLookup (relid : Relid) (key : IndexKey)
  | setMaxTuplesPerBlock (relid : Relid) (maxTuples : Nat)

namespace Call

/-- What a call on one relation does to it and to the caller's levels. -/
def onRelation (catalog : Catalog) : Call → Option (Relid × (Local → Local))
  | .clear relid => some (relid, fun here => here.clear (catalog relid) false)
  | .insert relid input check metadata keyed =>
    some (relid, fun here => (here.insert (catalog relid) input check metadata keyed).1)
  | .update relid tid input check hot metadata =>
    some (relid, fun here => (here.update (catalog relid) tid input check hot metadata).1)
  | .updateHotIfPreserved relid tid input key metadata =>
    some (relid, fun here =>
      (here.updateHotIfPreserved (catalog relid) tid input key metadata).1)
  | .delete relid tid keyed =>
    some (relid, fun here => (here.delete (catalog relid) tid keyed).1)
  | .recordInvalidateMetadata relid tid xid cid =>
    some (relid, fun here => here.recordInvalidateMetadata tid xid cid)
  | .recordPrimaryKey relid tid =>
    some (relid, fun here => here.recordPrimaryKey (catalog relid) tid)
  | .recordPrimaryKeyEntry relid key tid =>
    some (relid, fun here => here.recordPrimaryKeyEntry key tid)
  | .recordIndexEntries relid indexRelid prefixes tid =>
    some (relid, fun here => here.recordIndexEntries indexRelid prefixes tid)
  | .resolveTid relid tid =>
    some (relid, fun here => { here with
      relation := (here.relation.resolveTidRedirectCompress here.overlays tid).1 })
  | .resolveUpdateTid relid tid =>
    some (relid, fun here => { here with
      relation := (here.relation.resolveUpdateRedirectCompress here.overlays tid).1 })
  | .primaryKeyLookup relid key =>
    some (relid, fun here => { here with
      relation := (here.relation.primaryKeyLookup here.overlays key).1 })
  | .setMaxTuplesPerBlock relid maxTuples =>
    some (relid, fun here => { here with
      relation := here.relation.setMaxTuplesPerBlock maxTuples })
  | _ => none

end Call

/-- One call of one session. -/
structure Event where
  sid : SessionId
  call : Call

/-- Take one call; `none` only where a commit runs out of blocks. -/
def step (catalog : Catalog) (state : StorageState) (event : Event) : Option StorageState :=
  match event.call with
  | .xactBegin => state.xactBegin event.sid
  | .xactBeginImplicit => some (state.ensureTransaction event.sid)
  | .xactCommit => state.xactCommit event.sid
  | .xactAbort => some (state.xactAbort event.sid)
  | .xactCommitIfImplicit => state.xactCommitIfImplicit event.sid
  | .xactAbortIfImplicit => some (state.xactAbortIfImplicit event.sid)
  | .subxactBegin => some (state.subxactBegin event.sid)
  | .subxactCommit => some (state.subxactCommit event.sid)
  | .subxactAbort => some (state.subxactAbort event.sid)
  | call => match call.onRelation catalog with
      | some (relid, f) =>
        some (state.putLocal event.sid relid (f (state.localView event.sid relid)))
      | none => some state

end FastPg.Storage
