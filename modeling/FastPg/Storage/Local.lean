import FastPg.Storage.Keys

/-! # One session's operations on one relation

`Local` is what an operation of a session can reach of a relation: the shared
storage and the session's own levels. Row operations change the shared storage
and the innermost level only; a missing transaction is started first.
-/

namespace FastPg.Storage

open Assoc

/-- What the catalog says about a relation. -/
structure RelationCatalog where
  uniqueIndexSpecs : List UniqueIndexSpec
  primaryIndexSpec : Option UniqueIndexSpec

inductive UniqueCheck where
  | enforce
  | skip
  deriving DecidableEq, Repr

structure InsertMetadata where
  xid : Nat
  cid : Nat
  deriving DecidableEq, Repr

structure UpdateMetadata where
  deleteXid : Nat
  deleteCid : Nat
  insertXid : Nat
  insertCid : Nat
  rowXmax : Nat
  deriving DecidableEq, Repr

/-- The by-value column that decides whether an update keeps every index key. -/
structure SingleByvalHotKey where
  attnum : Nat
  value : Nat
  isNull : Bool
  deriving DecidableEq, Repr

structure Local where
  relation : RelationStorage
  overlays : Overlays

namespace Local

def ensureTransaction (here : Local) : Local :=
  match here.overlays with
  | [] => { here with overlays := [{}] }
  | _ :: _ => here

/-- Change the innermost level. -/
def modifyTop (here : Local) (f : RelationOverlay → RelationOverlay) : Local :=
  match here.overlays with
  | [] => here
  | top :: rest => { here with overlays := f top :: rest }

/-- Put the tuple in a page of the relation and claim the row. -/
def appendToBlock (relation : RelationStorage) (top : RelationOverlay) (block : Nat)
    (tuple : Bytes) : RelationStorage × RelationOverlay × Option Tid :=
  match relation.appendPendingTuple block tuple with
  | (relation, none) => (relation, top, none)
  | (relation, some tid) => (relation, top.insertTid tid, some tid)

/-- `append_pending_input_tuple_to_relation_page`: only relations without
    unique indexes share their pages with open transactions. -/
def appendToRelationPage (catalog : RelationCatalog) (relation : RelationStorage)
    (top : RelationOverlay) (tuple : Bytes) : RelationStorage × RelationOverlay × Option Tid :=
  if !catalog.uniqueIndexSpecs.isEmpty then (relation, top, none)
  else
    let top := top.checkpointRelation relation
    match relation.appendTargetBlock tuple.length with
    | (relation, none) => (relation, top, none)
    | (relation, some block) =>
      let top := match relation.page block with
        | some page => top.checkpointPage page
        | none => top
      appendToBlock relation top block tuple

/-- `reserve_pending_page` with the append to it; a refused tuple leaves the
    block reserved. -/
def appendToReservedPage (relation : RelationStorage) (top : RelationOverlay) (tuple : Bytes) :
    RelationStorage × RelationOverlay × Option Tid :=
  match relation.reserveBlock with
  | none => (relation, top, none)
  | some (reserved, block) =>
    let relation := { reserved with
      pendingReservedBlocks := reserved.pendingReservedBlocks.insert block }
    match top.appendPendingTupleToNewPage (Page.new block tuple.length) tuple with
    | (top, none) => (relation, top, none)
    | (top, some tid) => (relation, top.insertTid tid, some tid)

/-- `append_pending_input_tuple_with_len`: an own pending page, a shared page
    of the relation, or a newly reserved page. -/
def appendTop (catalog : RelationCatalog) (relation : RelationStorage) (top : RelationOverlay)
    (tuple : Bytes) : RelationStorage × RelationOverlay × Option Tid :=
  match top.appendPendingTupleToExistingPage tuple relation.maxTuplesPerBlock with
  | (top, some tid) => (relation, top.insertTid tid, some tid)
  | (top, none) =>
    match appendToRelationPage catalog relation top tuple with
    | (relation, top, some tid) => (relation, top, some tid)
    | (relation, top, none) => appendToReservedPage relation top tuple

def appendPendingTuple (here : Local) (catalog : RelationCatalog) (tuple : Bytes) :
    Local × Option Tid :=
  match here.ensureTransaction.overlays with
  | [] => (here, none)
  | top :: rest =>
    let (relation, top, tid) := appendTop catalog here.relation top tuple
    (⟨relation, top :: rest⟩, tid)

/-- Stamp a row the innermost level inserted, in its page wherever that is. -/
def setInsertMetadata (here : Local) (tid : Tid) (xid cid : Nat) : Local :=
  match here.overlays with
  | [] => here
  | top :: rest =>
    match (top.setInsertCid tid cid).setPendingInsertMetadata tid xid cid with
    | some top => { here with overlays := top :: rest }
    | none => ⟨here.relation.setInsertMetadata tid xid cid, top.setInsertCid tid cid :: rest⟩

def setRowXmax (here : Local) (tid : Tid) (xmax : Nat) : Local :=
  match here.overlays with
  | [] => here
  | top :: rest =>
    match top.setPendingRowXmax tid xmax with
    | some top => { here with overlays := top :: rest }
    | none => { here with relation := here.relation.setRowXmax tid xmax }

/-- The transaction and command of a new row, where they are given. -/
def stampInsert (here : Local) (tid : Tid) : Option InsertMetadata → Local
  | some metadata => here.setInsertMetadata tid metadata.xid metadata.cid
  | none => here

/-- `relation_insert_impl`. -/
def insert (here : Local) (catalog : RelationCatalog) (input : RowInput) (check : UniqueCheck)
    (metadata : Option InsertMetadata) (recordPrimaryKey : Bool) : Local × Option Tid :=
  if check = .enforce ∧ (here.relation.uniqueIndexConflictForInputRead here.overlays
      catalog.uniqueIndexSpecs input none).isSome then (here, none)
  else match encodeTuple input with
    | none => (here, none)
    | some tuple =>
      match here.appendPendingTuple catalog tuple with
      | (here, none) => (here, none)
      | (here, some tid) =>
        let here := here.stampInsert tid metadata
        let here := match recordPrimaryKey, catalog.primaryIndexSpec with
          | true, some spec =>
            match indexKeyForInput spec input with
            | some key => here.modifyTop fun top => top.insertPrimaryKey key tid
            | none => here
          | _, _ => here
        (here, some tid)

/-- Record that `newTid` replaces `oldTid` in the innermost level. -/
def recordUpdate (here : Local) (oldTid newTid : Tid) (hot : Bool)
    (metadata : Option UpdateMetadata) : Local :=
  let here := here.modifyTop fun top =>
    let top := (top.invalidate oldTid).insertUpdateRedirect oldTid newTid
    if hot then top.insertHotRedirect oldTid newTid else top
  match metadata with
  | none => here
  | some metadata =>
    let here := here.modifyTop fun top =>
      top.setInvalidateMetadata oldTid metadata.deleteXid metadata.deleteCid
    let here := here.setInsertMetadata newTid metadata.insertXid metadata.insertCid
    here.setRowXmax newTid metadata.rowXmax

/-- Move the primary-key entry of a row from its old key to its new one. -/
def recordKeyChange (here : Local) (oldKey newKey : Option IndexKey) (ownInsert : Bool)
    (newTid : Tid) : Local :=
  here.modifyTop fun top =>
    let top := match oldKey with
      | some key =>
        if oldKey = newKey then top
        else if ownInsert then top.removePrimaryKeyInsert key
        else top.deletePrimaryKey key
      | none => top
    match newKey with
    | some key => top.insertPrimaryKey key newTid
    | none => top

/-- `update_current_session_pending_hot`: update a row that is in an own
    pending page, in place of the general path, if the new version fits in the
    innermost level's pages. -/
def updatePendingHot (here : Local) (oldTid : Tid) (tuple : Bytes) (hot : Bool)
    (metadata : Option UpdateMetadata) : Option (Local × Tid) :=
  let oldTid := Redirect.follow (Overlays.updateRedirect here.overlays) maxHotRedirectHops oldTid
  if !Overlays.ownInsertedTid here.overlays oldTid || Overlays.invalidateTid here.overlays oldTid ||
      (Overlays.pendingTupleSlice here.overlays oldTid).isNone then none
  else match here.overlays with
    | [] => none
    | top :: rest =>
      match top.appendPendingTupleToExistingPage tuple here.relation.maxTuplesPerBlock with
      | (_, none) => none
      | (top, some newTid) =>
        some (recordUpdate { here with overlays := top.insertTid newTid :: rest } oldTid newTid hot
          metadata, newTid)

/-- The levels an update or delete resolves redirects through. -/
def resolving (here : Local) : Overlays :=
  if Overlays.hasVisibilityDeltas here.overlays then here.overlays else []

/-- Resolve the target of an update or delete: update redirects, then HOT
    redirects, compressing both. -/
def resolveForWrite (here : Local) (tid : Tid) : Local × Tid :=
  let levels := here.resolving
  let (relation, tid) := here.relation.resolveUpdateRedirectCompress levels tid
  let (relation, tid) := relation.resolveTidRedirectCompress levels tid
  ({ here with relation := relation }, tid)

/-- The general update path, from the resolved old version on. `hot` says
    whether index keys are kept, `keyless` whether key entries are left alone.
    The row is encoded last. -/
def updateResolved (here : Local) (catalog : RelationCatalog) (oldTid : Tid) (input : RowInput)
    (oldTuple : Bytes) (hot keyless : Bool) (metadata : Option UpdateMetadata) :
    Local × Option Tid :=
  let oldKey := if keyless then none
    else catalog.primaryIndexSpec.bind fun spec => indexKeyForTuple spec oldTuple
  let newKey := if keyless then none
    else catalog.primaryIndexSpec.bind fun spec => indexKeyForInput spec input
  let ownInsert := !keyless && Overlays.ownInsertedTid here.overlays oldTid
  match encodeTuple input with
  | none => (here, none)
  | some tuple =>
    match here.appendPendingTuple catalog tuple with
    | (here, none) => (here, none)
    | (here, some newTid) =>
      let here := here.recordUpdate oldTid newTid hot metadata
      (here.recordKeyChange oldKey newKey ownInsert newTid, some newTid)

/-- The tuple an update replaces, read the way the session reads the relation. -/
def oldTuple (here : Local) (oldTid : Tid) : Option Bytes :=
  here.relation.physicalVisibleTupleSliceForSession here.overlays oldTid
    (Overlays.hasVisibilityDeltas here.overlays)

/-- `relation_update_impl` after the shortcut for own pending rows. -/
def updateGeneral (here : Local) (catalog : RelationCatalog) (tid : Tid) (input : RowInput)
    (check : UniqueCheck) (hot : Bool) (metadata : Option UpdateMetadata) : Local × Option Tid :=
  let hotUnchecked := hot && check = .skip
  let (here, oldTid) := here.resolveForWrite tid
  match here.oldTuple oldTid with
  | none => (here, none)
  | some oldTuple =>
    if !hotUnchecked ∧ (decodeTuple oldTuple).isNone then (here, none)
    else
      let (relation, conflict) := if check = .enforce then
          RelationStorage.uniqueIndexConflictForInput here.overlays input (some oldTid)
            catalog.uniqueIndexSpecs here.relation
        else (here.relation, none)
      let here := { here with relation := relation }
      if conflict.isSome then (here, none)
      else here.updateResolved catalog oldTid input oldTuple hot hotUnchecked metadata

/-- `relation_update_impl`. -/
def update (here : Local) (catalog : RelationCatalog) (tid : Tid) (input : RowInput)
    (check : UniqueCheck) (hot : Bool) (metadata : Option UpdateMetadata) : Local × Option Tid :=
  if hot && check = .skip then
    match encodeTuple input with
    | none => (here, none)
    | some tuple =>
      match here.updatePendingHot tid tuple hot metadata with
      | some (here, newTid) => (here, some newTid)
      | none => here.updateGeneral catalog tid input check hot metadata
  else here.updateGeneral catalog tid input check hot metadata

/-- Whether an own pending row keeps its indexed by-value column. -/
def pendingPreserved (here : Local) (oldTid : Tid) (key : SingleByvalHotKey) : Bool :=
  if !Overlays.ownInsertedTid here.overlays oldTid || Overlays.invalidateTid here.overlays oldTid
  then false
  else match Overlays.pendingTupleSlice here.overlays oldTid with
    | some old => (tupleByvalAttrEquals old key.attnum key.value key.isNull).getD false
    | none => false

/-- The general path of `relation_update_hot_if_single_byval_preserved_impl`. -/
def updateHotIfPreservedGeneral (here : Local) (catalog : RelationCatalog) (tid : Tid)
    (input : RowInput) (key : SingleByvalHotKey) (metadata : Option UpdateMetadata) :
    Local × Option (Tid × Bool) :=
  let (here, oldTid) := here.resolveForWrite tid
  match here.oldTuple oldTid with
  | none => (here, none)
  | some oldTuple =>
    let hot := (tupleByvalAttrEquals oldTuple key.attnum key.value key.isNull).getD false
    if !hot ∧ (decodeTuple oldTuple).isNone then (here, none)
    else
      let (here, newTid) := here.updateResolved catalog oldTid input oldTuple hot hot metadata
      (here, newTid.map fun newTid => (newTid, hot))

/-- `relation_update_hot_if_single_byval_preserved_impl`: a HOT update when the
    indexed column keeps its value, a plain one otherwise. -/
def updateHotIfPreserved (here : Local) (catalog : RelationCatalog) (tid : Tid) (input : RowInput)
    (key : SingleByvalHotKey) (metadata : Option UpdateMetadata) : Local × Option (Tid × Bool) :=
  if key.attnum = 0 then (here, none)
  else
    let own := Redirect.follow (Overlays.updateRedirect here.overlays) maxHotRedirectHops
    let tid := own tid
    if here.pendingPreserved (own tid) key then
      match encodeTuple input with
      | none => (here, none)
      | some tuple =>
        match here.updatePendingHot (own tid) tuple true metadata with
        | some (here, newTid) => (here, some (newTid, true))
        | none => here.updateHotIfPreservedGeneral catalog tid input key metadata
    else here.updateHotIfPreservedGeneral catalog tid input key metadata

/-- `relation_delete_impl`. -/
def delete (here : Local) (catalog : RelationCatalog) (tid : Tid) (recordPrimaryKey : Bool) :
    Local × Bool :=
  let (here, tid) := here.resolveForWrite tid
  let ownInsert := Overlays.ownInsertedTid here.overlays tid
  match here.relation.findVisibleTuple here.overlays tid with
  | none => (here, false)
  | some values =>
    let oldKey := catalog.primaryIndexSpec.bind fun spec => indexKeyForDecoded spec values
    let here := here.ensureTransaction.modifyTop fun top => top.invalidate tid
    match recordPrimaryKey, oldKey with
    | true, some key =>
      (here.modifyTop fun top =>
        if ownInsert then top.removePrimaryKeyInsert key else top.deletePrimaryKey key, true)
    | _, _ => (here, true)

/-- `record_invalidate_metadata`: stamp a row the innermost level invalidated. -/
def recordInvalidateMetadata (here : Local) (tid : Tid) (xid cid : Nat) : Local :=
  here.modifyTop fun top =>
    if tid ∈ top.invalidatedTids then top.setInvalidateMetadata tid xid cid else top

/-- `primary_key_index_insert_with_spec`: a key entry computed by the caller. -/
def recordPrimaryKeyEntry (here : Local) (key : IndexKey) (tid : Tid) : Local :=
  here.ensureTransaction.modifyTop fun top => top.insertPrimaryKey key tid

/-- `relation_record_primary_key`: the key entry of a visible row. -/
def recordPrimaryKey (here : Local) (catalog : RelationCatalog) (tid : Tid) : Local :=
  match catalog.primaryIndexSpec with
  | none => here
  | some spec =>
    match (here.relation.findVisibleTuple here.overlays tid).bind (indexKeyForDecoded spec) with
    | some key => here.recordPrimaryKeyEntry key tid
    | none => here

/-- `index_insert_with_spec`: one entry for every prefix of the key. -/
def recordIndexEntries (here : Local) (indexRelid : Nat) (prefixes : List IndexKey) (tid : Tid) :
    Local :=
  here.ensureTransaction.modifyTop fun top =>
    prefixes.foldl (fun top key => top.insertIndexEntry indexRelid key tid) top

/-- The empty relation that takes the place of a cleared one. -/
def replacement (old : RelationStorage) (preserveTidSpace : Bool) : RelationStorage :=
  { RelationStorage.default with
    maxTuplesPerBlock := old.maxTuplesPerBlock
    nextBlock := if preserveTidSpace then old.nextBlock else 0 }

/-- The primary keys of the rows a clear takes away. -/
def clearedKeys (here : Local) (catalog : RelationCatalog) (visible : List Tid) : List IndexKey :=
  match catalog.primaryIndexSpec with
  | some spec => visible.filterMap fun tid =>
    (here.relation.findVisibleTuple here.overlays tid).bind (indexKeyForDecoded spec)
  | none => []

/-- `clear_relation_impl`: at once without a transaction, else undoable. -/
def clear (here : Local) (catalog : RelationCatalog) (preserveTidSpace : Bool) : Local :=
  let fresh := replacement here.relation preserveTidSpace
  match here.overlays with
  | [] => { here with relation := fresh }
  | top :: rest =>
    let visible := here.relation.visibleTids here.overlays
    let top := top.recordRelationClear here.relation
    let top := visible.foldl RelationOverlay.invalidate top
    let top := (here.clearedKeys catalog visible).foldl RelationOverlay.deletePrimaryKey top
    ⟨fresh, top :: rest⟩

/-- `rollback_overlay_from_relations` for one level. -/
def rollbackOverlay (relation : RelationStorage) (overlay : RelationOverlay) : RelationStorage :=
  let relation := overlay.insertedTids.foldl (fun relation tid => (relation.markDead tid).1) relation
  let relation := { relation with
    pendingReservedBlocks := (overlay.pendingPages.map Page.block).foldl OrdSet.erase
      relation.pendingReservedBlocks }
  let relation := match overlay.relationCheckpoint with
    | some checkpoint => relation.restoreRollbackMetadataPreservingTidSpace checkpoint
    | none => relation
  overlay.clearedRelation.getD relation

/-- Roll back every level, innermost first. -/
def rollbackAll (relation : RelationStorage) : Overlays → RelationStorage
  | [] => relation
  | overlay :: rest => rollbackAll (rollbackOverlay relation overlay) rest

end Local

/-! ## Steps of an append -/

/-- The level claims a row that was placed. -/
def RelationOverlay.claim (top : RelationOverlay) (result : Option Tid) : RelationOverlay :=
  result.elim top top.insertTid

namespace Local

/-- One step of an append and where it places the tuple: it goes to an own page, to a
    block of the relation or to a new block, or a block of the relation is chosen,
    with the relation and the block's page checkpointed before. -/
inductive AppendStep (tuple : Bytes) :
    Option Tid → RelationStorage → RelationOverlay → RelationStorage → RelationOverlay → Prop where
  | existing {relation : RelationStorage} {top top' : RelationOverlay} {result : Option Tid}
      (appended : top.appendPendingTupleToExistingPage tuple relation.maxTuplesPerBlock =
        (top', result)) : AppendStep tuple result relation top relation (top'.claim result)
  | target {relation relation' : RelationStorage} {top : RelationOverlay} {block : Option Nat}
      (chosen : relation.appendTargetBlock tuple.length = (relation', block)) :
      AppendStep tuple none relation top relation' (top.checkpointRelation relation)
  | page {relation : RelationStorage} {top : RelationOverlay} {block : Nat} {page : Page}
      (paged : relation.page block = some page)
      (checked : top.relationCheckpoint ≠ none) :
      AppendStep tuple none relation top relation (top.checkpointPage page)
  | shared {relation relation' : RelationStorage} {top : RelationOverlay} {result : Option Tid}
      {block : Nat} (appended : relation.appendPendingTuple block tuple = (relation', result)) :
      AppendStep tuple result relation top relation' (top.claim result)
  | reserved {relation reserved : RelationStorage} {top top' : RelationOverlay} {result : Option Tid}
      {block : Nat} (reservation : relation.reserveBlock = some (reserved, block))
      (appended : top.appendPendingTupleToNewPage (Page.new block tuple.length) tuple =
        (top', result)) :
      AppendStep tuple result relation top { reserved with
        pendingReservedBlocks := reserved.pendingReservedBlocks.insert block } (top'.claim result)

/-- Steps of an append, of which only the last can place the tuple. -/
inductive AppendSteps (tuple : Bytes) :
    Option Tid → RelationStorage → RelationOverlay → RelationStorage → RelationOverlay → Prop where
  | nil (relation : RelationStorage) (top : RelationOverlay) :
      AppendSteps tuple none relation top relation top
  | cons {relation relation' relation'' : RelationStorage} {top top' top'' : RelationOverlay}
      {result : Option Tid} (first : AppendStep tuple none relation top relation' top')
      (rest : AppendSteps tuple result relation' top' relation'' top'') :
      AppendSteps tuple result relation top relation'' top''
  | last {relation relation' : RelationStorage} {top top' : RelationOverlay} {result : Option Tid}
      (step : AppendStep tuple result relation top relation' top') :
      AppendSteps tuple result relation top relation' top'

variable {relation relation' relation'' : RelationStorage} {top top' top'' : RelationOverlay}
  {tuple : Bytes} {result : Option Tid}

theorem AppendSteps.trans (first : AppendSteps tuple none relation top relation' top')
    (second : AppendSteps tuple result relation' top' relation'' top'') :
    AppendSteps tuple result relation top relation'' top'' := by
  generalize unplaced : (none : Option Tid) = placed at first
  induction first with
  | nil => exact second
  | cons step _ ih => exact .cons step (ih second unplaced)
  | last step => exact .cons (unplaced ▸ step) second

theorem appendToRelationPage_steps {catalog : RelationCatalog}
    (h : appendToRelationPage catalog relation top tuple = (relation', top', result)) :
    AppendSteps tuple result relation top relation' top' := by
  have toBlock : ∀ {relation top block},
      appendToBlock relation top block tuple = (relation', top', result) →
      AppendSteps tuple result relation top relation' top' := by
    intro relation top block h
    unfold appendToBlock at h
    split at h
    next appended => cases h; exact .last (.shared appended)
    next appended => cases h; exact .last (.shared appended)
  unfold appendToRelationPage at h
  split at h
  · cases h
    exact .nil _ _
  · dsimp only at h
    split at h
    next chosen => cases h; exact .last (.target chosen)
    next relation₁ block chosen =>
      refine .cons (.target chosen) ?_
      cases paged : relation₁.page block with
      | none =>
        rw [paged] at h
        exact toBlock h
      | some page =>
        rw [paged] at h
        have checked : (top.checkpointRelation relation).relationCheckpoint ≠ none := by
          simp [RelationOverlay.checkpointRelation]
        exact .cons (.page paged checked) (toBlock h)

theorem appendTop_steps {catalog : RelationCatalog}
    (h : appendTop catalog relation top tuple = (relation', top', result)) :
    AppendSteps tuple result relation top relation' top' := by
  unfold appendTop at h
  split at h
  next appended => cases h; exact .last (.existing appended)
  next appended =>
    refine .cons (.existing appended) ?_
    dsimp only [RelationOverlay.claim, Option.elim]
    split at h
    next shared => cases h; exact appendToRelationPage_steps shared
    next shared =>
      refine (appendToRelationPage_steps shared).trans ?_
      unfold appendToReservedPage at h
      split at h
      · cases h
        exact .nil _ _
      · next reservation =>
        dsimp only at h
        split at h
        next appended => cases h; exact .last (.reserved reservation appended)
        next appended => cases h; exact .last (.reserved reservation appended)

/-- Appending changes the innermost level, which it opens where there is none. -/
theorem appendPendingTuple_steps {catalog : RelationCatalog} {here here' : Local}
    (h : here.appendPendingTuple catalog tuple = (here', result)) :
    ∃ top top' outer, here.ensureTransaction.overlays = top :: outer ∧
      here'.overlays = top' :: outer ∧
      AppendSteps tuple result here.relation top here'.relation top' := by
  unfold appendPendingTuple at h
  cases levels : here.ensureTransaction.overlays with
  | nil =>
    unfold ensureTransaction at levels
    split at levels <;> simp_all
  | cons top outer =>
    rw [levels] at h
    cases h
    exact ⟨top, _, outer, rfl, rfl, appendTop_steps rfl⟩

end Local

/-! ## Stamps -/

/-- A change to the lines of a page that keeps its rows. -/
structure Page.KeepsRows (f : Page → Page) : Prop where
  block : ∀ page, (f page).block = page.block
  lines : ∀ page, (f page).linePointers.length = page.linePointers.length
  row : ∀ page offset, (f page).row offset = page.row offset

/-- All a stamp can do to a relation. -/
inductive RelationStorage.Stamps : RelationStorage → RelationStorage → Prop where
  | none (relation : RelationStorage) : Stamps relation relation
  | page {relation : RelationStorage} {block : Nat} {f : Page → Page} (keeps : Page.KeepsRows f) :
      Stamps relation (relation.modifyPage block f keeps.block)

/-- All a stamp can do: change a page of the innermost level, or one of the relation. -/
inductive Local.Stamps : Local → Local → Prop where
  | own {relation : RelationStorage} {top top' : RelationOverlay} {outer : Overlays} {tid : Tid}
      {f : Page → Page} (keeps : Page.KeepsRows f) (stamped : top.modifyPendingPage tid f = some top') :
      Stamps ⟨relation, top :: outer⟩ ⟨relation, top' :: outer⟩
  | shared {relation relation' : RelationStorage} {levels : Overlays}
      (stamped : relation.Stamps relation') : Stamps ⟨relation, levels⟩ ⟨relation', levels⟩

variable (relation : RelationStorage)

theorem Page.setInsertMetadata_keeps (offset xmin cmin : Nat) :
    KeepsRows fun page => page.setInsertMetadata offset xmin cmin :=
  ⟨fun _ => rfl, fun page => page.modifyLine_length _ _ _, fun page => page.row_setInsertMetadata _ _ _⟩

theorem Page.setRowXmax_keeps (offset xmax : Nat) :
    KeepsRows fun page => page.setRowXmax offset xmax :=
  ⟨fun _ => rfl, fun page => page.modifyLine_length _ _ _, fun page => page.row_setRowXmax _ _⟩

theorem RelationStorage.setInsertMetadata_stamps (tid : Tid) (xmin cmin : Nat) :
    relation.Stamps (relation.setInsertMetadata tid xmin cmin) := by
  unfold setInsertMetadata
  split
  · exact .none relation
  · exact .page (Page.setInsertMetadata_keeps _ _ _)

theorem RelationStorage.setRowXmax_stamps (tid : Tid) (xmax : Nat) :
    relation.Stamps (relation.setRowXmax tid xmax) := by
  unfold setRowXmax
  split
  · exact .none relation
  · exact .page (Page.setRowXmax_keeps _ _)

theorem Local.setInsertMetadata_stamps (here : Local) (tid : Tid) (xid cid : Nat) :
    Stamps (here.modifyTop fun top => top.setInsertCid tid cid) (here.setInsertMetadata tid xid cid) := by
  obtain ⟨relation, overlays⟩ := here
  cases overlays with
  | nil => exact .shared (.none relation)
  | cons top outer =>
    unfold Local.setInsertMetadata
    dsimp only
    split
    next stamped => exact .own (Page.setInsertMetadata_keeps _ _ _) stamped
    next => exact .shared (relation.setInsertMetadata_stamps tid xid cid)

theorem Local.setRowXmax_stamps (here : Local) (tid : Tid) (xmax : Nat) :
    Stamps here (here.setRowXmax tid xmax) := by
  obtain ⟨relation, overlays⟩ := here
  cases overlays with
  | nil => exact .shared (.none relation)
  | cons top outer =>
    unfold Local.setRowXmax
    dsimp only
    split
    next stamped => exact .own (Page.setRowXmax_keeps _ _) stamped
    next => exact .shared (relation.setRowXmax_stamps tid xmax)

end FastPg.Storage
