import FastPg.Storage.Release

/-! # The engine around the storage

The storage with what stands beside it: relations are replaced by the rows of
others, and the number of committed rows is cached for every relation. The
cache is refreshed at commits that change the number, at rollbacks that restore
a relation, and at clears outside transactions. Lookups by key take it for the
number of rows: where it is zero, they look at the session's own pages first.
-/

namespace FastPg.Storage

open Assoc Redirect Transition

/-! ## Replacing a relation -/

namespace Local

/-- `append_pending_tuple`: an own pending page or a newly reserved one. -/
def appendCopy (here : Local) (tuple : Bytes) : Local × Option Tid :=
  match here.ensureTransaction.overlays with
  | [] => (here, none)
  | top :: rest =>
    match top.appendPendingTupleToExistingPage tuple here.relation.maxTuplesPerBlock with
    | (top, some tid) => (⟨here.relation, top.insertTid tid :: rest⟩, some tid)
    | (top, none) =>
      let (relation, top, tid) := appendToReservedPage here.relation top tuple
      (⟨relation, top :: rest⟩, tid)

/-- The key entry of a copied tuple. -/
def recordCopiedKey (here : Local) (catalog : RelationCatalog) (tuple : Bytes) (tid : Tid) : Local :=
  match catalog.primaryIndexSpec.bind fun spec =>
      (decodeTuple tuple).bind (indexKeyForDecoded spec) with
  | some key => here.modifyTop fun top => top.insertPrimaryKey key tid
  | none => here

/-- Copy tuples until one is refused, and whether none was. -/
def copyTuples (catalog : RelationCatalog) : List Bytes → Local → Local × Bool
  | [], here => (here, true)
  | tuple :: rest, here =>
    match here.appendCopy tuple with
    | (here, none) => (here, false)
    | (here, some tid) => copyTuples catalog rest (here.recordCopiedKey catalog tuple tid)

/-- The part of `replace_relation_from` that concerns the replaced relation. -/
def replaceWith (here : Local) (catalog : RelationCatalog) (tuples : List Bytes) : Local × Bool :=
  copyTuples catalog tuples (here.clear catalog true)

end Local

namespace StorageState

/-- The tuples a session sees in a relation, as they are copied. -/
def visibleTuples (state : StorageState) (sid : SessionId) (relid : Relid) : List Bytes :=
  ((state.relations relid).visibleTids (state.overlays sid relid)).filterMap
    ((state.relations relid).visibleTupleSlice (state.overlays sid relid))

/-- `replace_relation_from`; a refused tuple leaves those copied before it. -/
def replaceRelationFrom (catalog : Catalog) (state : StorageState) (sid : SessionId)
    (dst src : Relid) : StorageState × Bool :=
  let replaced := (state.localView sid dst).replaceWith (catalog dst) (state.visibleTuples sid src)
  (state.putLocal sid dst replaced.1, replaced.2)

end StorageState

/-! ## Cached row counts -/

namespace Local

/-- The number of rows that marking them one by one changed. -/
def countMarked (mark : RelationStorage → Tid → RelationStorage × Bool) :
    List Tid → RelationStorage → Nat
  | [], _ => 0
  | tid :: rest, relation =>
    let (relation, marked) := mark relation tid
    countMarked mark rest relation + if marked then 1 else 0

/-- `publishInvalidation` with whether a row died. -/
def markInvalidated (overlay : RelationOverlay) (relation : RelationStorage) (tid : Tid) :
    RelationStorage × Bool :=
  (publishInvalidation overlay relation tid,
    !overlay.clearInsertShadowsInvalidation tid && (relation.markDead tid).2)

/-- Whether publishing an overlay changes the number of live rows, as counted by
    `commit_overlay_to_relations`. -/
def overlayRecounts (relation : RelationStorage) (overlay : RelationOverlay) : Bool :=
  match overlay.pendingPages.foldlM (publishPage overlay) (relation, []) with
  | none => false
  | some (relation, remaps) =>
    let overlay := overlay.remapTids remaps
    let live := overlay.insertedTids.foldl (fun relation tid => (relation.markLive tid).1) relation
    countMarked RelationStorage.markLive overlay.insertedTids relation ≠
      countMarked (markInvalidated overlay) overlay.invalidatedTids live

def commitRecounts (here : Local) : Bool :=
  match here.overlays with
  | [] => false
  | top :: rest => overlayRecounts here.relation (mergeAll top rest)

/-- The cached count after rolling back levels, innermost first: a level that
    restores the relation refreshes it. -/
def rollbackCount : RelationStorage → Overlays → Nat → Nat
  | _, [], count => count
  | relation, overlay :: rest, count =>
    let relation := rollbackOverlay relation overlay
    rollbackCount relation rest
      (if overlay.relationCheckpoint.isSome || overlay.cleared then relation.liveTupleCount
        else count)

end Local

/-- The storage and the cached row count of every relation. -/
structure Engine where
  storage : StorageState
  rowCounts : Relid → Nat

/-- A call of the storage, or the replacement of a relation. -/
inductive Action where
  | call (call : Call)
  | replaceFrom (dst src : Relid)

/-- One action of one session. -/
structure Request where
  sid : SessionId
  action : Action

namespace Engine

def initial : Engine := ⟨.initial, fun _ => 0⟩

def commitCounts (before after : StorageState) (sid : SessionId) (counts : Relid → Nat) :
    Relid → Nat := fun relid =>
  if (before.localView sid relid).commitRecounts then (after.relations relid).liveTupleCount
  else counts relid

def rollbackCounts (before : StorageState) (stack : List TransactionOverlay)
    (counts : Relid → Nat) : Relid → Nat := fun relid =>
  Local.rollbackCount (before.relations relid) (stack.map fun level => level.get relid) (counts relid)

/-- A clear outside transactions takes effect, and is counted, at once. -/
def clearCounts (before : StorageState) (sid : SessionId) (relid : Relid) (counts : Relid → Nat) :
    Relid → Nat :=
  if (before.sessions sid).stack.isEmpty then fun other => if other = relid then 0 else counts other
  else counts

/-- The cached counts after a call. -/
def countsAfter (before after : StorageState) (sid : SessionId) (counts : Relid → Nat) :
    Call → Relid → Nat
  | .xactCommit => commitCounts before after sid counts
  | .xactBegin | .xactCommitIfImplicit =>
    if (before.sessions sid).commitEmptyImplicitTransaction.2 then counts
    else commitCounts before after sid counts
  | .xactAbort => rollbackCounts before (before.sessions sid).stack counts
  | .xactAbortIfImplicit =>
    if (before.sessions sid).abortEmptyImplicitTransaction.2 then counts
    else rollbackCounts before (before.sessions sid).stack counts
  | .subxactAbort =>
    match (before.sessions sid).stack with
    | top :: _ :: _ => rollbackCounts before [top] counts
    | _ => counts
  | .clear relid => clearCounts before sid relid counts
  | _ => counts

/-- Take one action. -/
def step (catalog : Catalog) (engine : Engine) (request : Request) : Option Engine :=
  match request.action with
  | .call call => (Storage.step catalog engine.storage ⟨request.sid, call⟩).map fun storage =>
    ⟨storage, countsAfter engine.storage storage request.sid engine.rowCounts call⟩
  | .replaceFrom dst src =>
    some ⟨(engine.storage.replaceRelationFrom catalog request.sid dst src).1,
      clearCounts engine.storage request.sid dst engine.rowCounts⟩

end Engine

/-! ## Runs -/

namespace Local

/-- Copying never uses the pages of the relation, as if it had a unique index. -/
def unshared : RelationCatalog := ⟨[⟨0, false, false, []⟩], none⟩

variable (here : Local) (catalog : RelationCatalog)

theorem appendCopy_eq (tuple : Bytes) :
    here.appendCopy tuple = here.appendPendingTuple unshared tuple := by
  unfold appendCopy appendPendingTuple appendTop
  cases here.ensureTransaction.overlays with
  | nil => rfl
  | cons top rest =>
    dsimp only
    cases top.appendPendingTupleToExistingPage tuple here.relation.maxTuplesPerBlock with
    | mk top result => cases result <;> rfl

theorem recordCopiedKey_moves (catalog : RelationCatalog) (tuple : Bytes) (tid : Tid) :
    Moves unshared here (here.recordCopiedKey catalog tuple tid) := by
  unfold recordCopiedKey
  split
  next key _ =>
    exact .single (.note here _ (fun _ => ⟨rfl, rfl, rfl, rfl, rfl, rfl, rfl⟩)
      fun _ _ tidy => tidy.insertPrimaryKey key tid)
  next => exact .refl

theorem copyTuples_moves (tuples : List Bytes) (here : Local) :
    Moves unshared here (copyTuples catalog tuples here).1 := by
  induction tuples generalizing here with
  | nil => exact .refl
  | cons tuple rest ih =>
    have first : Move unshared here (here.appendCopy tuple).1 :=
      here.appendCopy_eq tuple ▸ .append here tuple
    rw [copyTuples]
    cases appended : here.appendCopy tuple with
    | mk copied result =>
      rw [appended] at first
      cases result with
      | none => exact .single first
      | some tid =>
        exact .trans (.head first (copied.recordCopiedKey_moves catalog tuple tid)) (ih _)

theorem copyTuples_depth (tuples : List Bytes) (here : Local) :
    SameDepth here (copyTuples catalog tuples here).1 := by
  induction tuples generalizing here with
  | nil => exact .refl
  | cons tuple rest ih =>
    rw [copyTuples]
    cases appended : here.appendCopy tuple with
    | mk copied result =>
      have first := SameDepth.appendPendingTuple ((here.appendCopy_eq tuple).symm.trans appended)
      cases result with
      | none => exact first
      | some tid =>
        have keyed : SameDepth copied (copied.recordCopiedKey catalog tuple tid) := by
          unfold recordCopiedKey
          split
          · exact .modifyTop _
          · exact .refl
        exact (first.trans keyed).trans (ih _)

theorem clear_stack (stack : StackSound here.relation here.overlays) (catalog : RelationCatalog)
    (preserveTidSpace : Bool) :
    StackSound (here.clear catalog preserveTidSpace).relation
      (here.clear catalog preserveTidSpace).overlays := by
  obtain ⟨relation, overlays⟩ := here
  cases overlays with
  | nil => exact replacement_sound relation preserveTidSpace
  | cons top outer =>
    obtain ⟨top', cleared, stack', -⟩ := clear_spec catalog preserveTidSpace stack
    rw [cleared]
    exact stack'

end Local

theorem Shared.replace {view : View} {sid : SessionId} (shared : Shared view)
    (catalog : RelationCatalog) (tuples : List Bytes) (alone : ∀ b, b ≠ sid → Idle (view.levels b)) :
    Shared (view.put sid ((view.reach sid).replaceWith catalog tuples).1) := by
  have cleared : Shared (view.put sid ((view.reach sid).clear catalog true)) := by
    cases levels : view.levels sid with
    | nil => exact shared.clearAtOnce catalog true levels alone
    | cons top outer => exact shared.clear catalog true levels alone
  have stack := Local.clear_stack (view.reach sid) (shared.levels sid) catalog true
  have copied := Local.copyTuples_moves catalog tuples ((view.reach sid).clear catalog true)
  have writes := copied.writes stack
  have here : (view.put sid ((view.reach sid).clear catalog true)).reach sid =
      (view.reach sid).clear catalog true := by
    simp [View.reach]
  have next := cleared.writes (by rwa [here]) fun a ne busy => by
    rw [View.put_levels_other view _ ne, (alone a ne).holdsClear] at busy
    cases busy
  rwa [View.put_put] at next

namespace StorageState

/-- The replacement of a relation, seen from any relation. -/
theorem replaceRelationFrom_view (catalog : Catalog) (state : StorageState) (sid : SessionId)
    (dst src relid : Relid) :
    (relid = dst ∧ (state.replaceRelationFrom catalog sid dst src).1.view relid =
      (state.view relid).put sid (((state.view relid).reach sid).replaceWith (catalog dst)
        (state.visibleTuples sid src)).1) ∨
    (relid ≠ dst ∧ Effect catalog relid sid .xactBeginImplicit (state.view relid)
      ((state.replaceRelationFrom catalog sid dst src).1.view relid)) := by
  by_cases same : relid = dst
  · subst same
    exact .inl ⟨rfl, view_putLocal_self ..⟩
  · have depth : (state.localView sid dst).SameDepth
        ((state.localView sid dst).replaceWith (catalog dst) (state.visibleTuples sid src)).1 :=
      Local.SameDepth.trans (.inl (Local.clear_length ..)) (Local.copyTuples_depth ..)
    exact .inr ⟨same, putLocal_other_effect catalog .xactBeginImplicit same depth⟩

end StorageState

namespace Engine

/-- A replacement excludes the other sessions like a clear does. -/
def Respects (engine : Engine) (request : Request) : Prop :=
  match request.action with
  | .call call => RespectsClears engine.storage ⟨request.sid, call⟩
  | .replaceFrom dst _ => RespectsClears engine.storage ⟨request.sid, .clear dst⟩

/-- What every reachable engine keeps. -/
structure Kept (engine : Engine) : Prop where
  shared : AllShared engine.storage
  orderly : AllOrderly engine.storage

variable {catalog : Catalog}

theorem Kept.step {engine engine' : Engine} {request : Request} (kept : Kept engine)
    (respects : Respects engine request) (taken : step catalog engine request = some engine') :
    Kept engine' := by
  obtain ⟨sid, action⟩ := request
  cases action with
  | call call =>
    obtain ⟨storage, stepped, rfl⟩ := Option.map_eq_some_iff.mp taken
    exact ⟨step_shared kept.shared respects stepped, fun relid =>
      (step_effect stepped relid).orderly (kept.shared relid) (kept.orderly relid)⟩
  | replaceFrom dst src =>
    cases taken
    refine ⟨fun relid => ?_, fun relid => ?_⟩
    all_goals
      rcases StorageState.replaceRelationFrom_view catalog engine.storage sid dst src relid with
        ⟨rfl, view⟩ | ⟨other, effect⟩
    · rw [view]
      exact (kept.shared relid).replace _ _ (respects.taken relid rfl)
    · exact effect.shared (kept.shared relid) (by simp [Call.changes]) (by simp)
    · rw [view]
      intro other
      by_cases same : other = sid
      · subst same
        rw [View.put_levels_self]
        have stack := (kept.shared relid).levels other
        have cleared := @Local.clear_orderly (catalog relid) true
          ((engine.storage.view relid).reach other) stack (kept.orderly relid other)
        exact (Local.copyTuples_moves ..).orderly (Local.clear_stack _ stack (catalog relid) true)
          cleared
      · rw [View.put_levels_other _ _ same]
        exact kept.orderly relid other
    · exact effect.orderly (kept.shared relid) (kept.orderly relid)

theorem reaches_kept {engine : Engine} (reached : Reaches (step catalog) Respects .initial engine) :
    Kept engine :=
  reached.invariant (show Kept .initial from ⟨initial_shared, fun _ _ => trivial⟩)
    fun _ _ _ kept respects taken => kept.step respects taken

end Engine

/-! ## Lookups that start in the session's own pages -/

namespace Overlays

/-- `overlay_visible_tuple_slice` without a snapshot. -/
def visiblePendingSlice (overlays : Overlays) (tid : Tid) : Option Bytes :=
  match overlays with
  | [overlay] =>
    if singleOverlayTidVisibility overlay tid none = some true then overlay.pendingTupleSlice tid
    else none
  | overlays =>
    if invalidateTid overlays tid then none
    else if clearTid overlays tid then none
    else pendingTupleSlice overlays tid

/-- `resolve_overlay_update_redirect`: own update redirects only. -/
def resolveUpdate (overlays : Overlays) (tid : Tid) : Tid :=
  follow (updateRedirect overlays) maxHotRedirectHops tid

/-- `resolve_overlay_tid_redirect`: own HOT redirects only. -/
def resolveTid (overlays : Overlays) (tid : Tid) : Tid :=
  follow (tidRedirect overlays) maxHotRedirectHops tid

/-- The index entries of a key in the levels of a session, outermost first. -/
def indexEntries (overlays : Overlays) (indexRelid : Nat) (key : IndexKey) : List Tid :=
  overlays.reverse.flatMap fun overlay => (lookup overlay.indexInserts (indexRelid, key)).getD []

end Overlays

inductive OverlayLookup where
  | found (tid : Tid)
  | hidden
  | missing
  deriving DecidableEq, Repr

/-- The levels from the inside out: an entry whose row is visible, or a level
    that deleted the key. -/
def overlayLookup (visible : Tid → Bool) (all : Overlays) (key : IndexKey) : Overlays → OverlayLookup
  | [] => .missing
  | overlay :: rest =>
    let entry := (lookup overlay.primaryKeyInserts key).map all.resolveUpdate
    match entry.filter fun tid => visible tid && !all.invalidateTid tid with
    | some tid => .found tid
    | none =>
      if key ∈ overlay.primaryKeyDeletes then .hidden else overlayLookup visible all key rest

/-- Resolve the candidates of an index key; `none` where one is not visible or
    there are too many. -/
def collectMatches (candidate : Tid → Option Tid) (maxTids : Nat) :
    List Tid → OrdSet Tid → Option (List Tid)
  | [], output => some output.elems
  | tid :: rest, output => do
      let visible ← candidate tid
      if (output.insert visible).elems.length ≤ maxTids then
        collectMatches candidate maxTids rest (output.insert visible)
      else none

namespace RelationStorage

/-- `primary_key_overlay_lookup_current_session`. -/
def primaryKeyOverlayLookup (relation : RelationStorage) (overlays : Overlays) (rowCount : Nat)
    (key : IndexKey) : OverlayLookup :=
  let shared := overlayLookup (fun tid => (relation.findVisibleTuple overlays tid).isSome)
    overlays key overlays
  if rowCount = 0 then
    match overlayLookup (fun tid => (overlays.visiblePendingSlice tid).isSome)
        overlays key overlays with
    | .missing => shared
    | outcome => outcome
  else shared

/-- `fastpg_storage2_primary_key_index_lookup`. -/
def primaryKeyIndexLookup (relation : RelationStorage) (overlays : Overlays) (rowCount : Nat)
    (key : IndexKey) : RelationStorage × Option Tid :=
  match relation.primaryKeyOverlayLookup overlays rowCount key with
  | .found tid => (relation, some tid)
  | .hidden => (relation, none)
  | .missing => relation.primaryKeyLookup overlays key

/-- `fastpg_storage2_primary_key_index_lookup_with_spec`: what the entries do
    not lead to is looked for among the visible rows. -/
def primaryKeyIndexLookupWithSpec (relation : RelationStorage) (overlays : Overlays)
    (rowCount : Nat) (spec : UniqueIndexSpec) (key : IndexKey) : RelationStorage × Option Tid :=
  match relation.primaryKeyOverlayLookup overlays rowCount key with
  | .found tid => (relation, some tid)
  | .hidden => (relation, none)
  | .missing =>
    match relation.primaryKeyLookup overlays key with
    | (relation, some tid) => (relation, some tid)
    | (relation, none) =>
      relation.findVisibleByIndexKeyExcluding overlays { spec with isPrimary := false } key none

/-- `visible_index_candidate_tid`. -/
def visibleIndexCandidateTid (relation : RelationStorage) (overlays : Overlays) (tid : Tid) :
    Option Tid :=
  let visible := relation.resolveTidRedirect overlays (relation.resolveUpdateRedirect overlays tid)
  (relation.visibleTupleSlice overlays visible).map fun _ => visible

/-- `collect_index_prefix_matches`. -/
def indexPrefixMatches (relation : RelationStorage) (overlays : Overlays) (indexRelid : Nat)
    (key : IndexKey) (maxTids : Nat) : Option (List Tid) :=
  collectMatches (relation.visibleIndexCandidateTid overlays) maxTids
    ((lookup relation.indexes (indexRelid, key)).getD [] ++ overlays.indexEntries indexRelid key)
    .empty

end RelationStorage

namespace Overlays

/-- `visible_overlay_index_candidate_tid`. -/
def visibleIndexCandidateTid (overlays : Overlays) (tid : Tid) : Option Tid :=
  let visible := overlays.resolveTid (overlays.resolveUpdate tid)
  (overlays.visiblePendingSlice visible).map fun _ => visible

/-- `collect_overlay_index_prefix_matches`. -/
def indexPrefixMatches (overlays : Overlays) (indexRelid : Nat) (key : IndexKey) (maxTids : Nat) :
    Option (List Tid) :=
  if overlays.any fun overlay => (lookup overlay.indexInserts (indexRelid, key)).isSome then
    collectMatches overlays.visibleIndexCandidateTid maxTids (overlays.indexEntries indexRelid key)
      .empty
  else none

end Overlays

namespace RelationStorage

/-- `fastpg_storage2_index_prefix_lookup_with_spec`, given the key. -/
def indexPrefixLookup (relation : RelationStorage) (overlays : Overlays) (rowCount : Nat)
    (indexRelid : Nat) (key : IndexKey) (maxTids : Nat) : Option (List Tid) :=
  if maxTids = 0 then none
  else
    let shared := relation.indexPrefixMatches overlays indexRelid key maxTids
    if rowCount = 0 then (overlays.indexPrefixMatches indexRelid key maxTids).or shared else shared

end RelationStorage

end FastPg.Storage
