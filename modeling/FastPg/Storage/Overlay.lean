import FastPg.Storage.Relation
import FastPg.Lib.Redirect

/-! # Transaction overlays

An overlay holds what one transaction level did to one relation: its own pages
and rows, the rows it invalidated, its redirects and key entries, checkpoints
for rollback and, after a clear, the relation as it was before. A transaction
overlay of the source is one such record per relation; a missing map entry is
an empty list here.
-/

namespace FastPg.Storage

open Assoc

structure DeleteMetadata where
  xid : Nat
  cid : Nat
  deriving DecidableEq, Repr

/-- The list of pages a level allocated itself is never filled by the source
    and is left out. -/
structure RelationOverlay where
  pendingPages : List Page := []
  relationCheckpoint : Option RelationCheckpoint := none
  pageCheckpoints : List (Nat × PageCheckpoint) := []
  insertedTids : List Tid := []
  insertedCids : List (Tid × Nat) := []
  invalidatedTids : List Tid := []
  invalidatedMetadata : List (Tid × DeleteMetadata) := []
  hotRedirectInserts : List (Tid × Tid) := []
  updateRedirectInserts : List (Tid × Tid) := []
  primaryKeyInserts : List (IndexKey × Tid) := []
  primaryKeyDeletes : List IndexKey := []
  indexInserts : List ((Nat × IndexKey) × List Tid) := []
  clearedRelation : Option RelationStorage := none

/-- Change the first element that satisfies `p`. -/
def updateFirst {α : Type*} (p : α → Bool) (f : α → α) : List α → List α
  | [] => []
  | a :: rest => if p a then f a :: rest else a :: updateFirst p f rest

def remapTid (remaps : List (Tid × Tid)) (tid : Tid) : Tid := (lookup remaps tid).getD tid

/-- An inserted row outlives an invalidation that an earlier clear left on its
    tid when its command id is larger, or when neither has one. -/
def insertShadowsInvalidation (insertCid invalidatedCid : Nat) : Bool :=
  invalidatedCid < insertCid || (insertCid = 0 && invalidatedCid = 0)

namespace RelationOverlay

def isEmpty (overlay : RelationOverlay) : Bool :=
  overlay.pendingPages.isEmpty && overlay.relationCheckpoint.isNone &&
    overlay.pageCheckpoints.isEmpty && overlay.insertedTids.isEmpty &&
    overlay.insertedCids.isEmpty && overlay.invalidatedTids.isEmpty &&
    overlay.invalidatedMetadata.isEmpty && overlay.hotRedirectInserts.isEmpty &&
    overlay.updateRedirectInserts.isEmpty && overlay.primaryKeyInserts.isEmpty &&
    overlay.primaryKeyDeletes.isEmpty && overlay.indexInserts.isEmpty &&
    overlay.clearedRelation.isNone

def cleared (overlay : RelationOverlay) : Bool := overlay.clearedRelation.isSome

def checkpointRelation (overlay : RelationOverlay) (relation : RelationStorage) : RelationOverlay :=
  { overlay with
    relationCheckpoint := overlay.relationCheckpoint.or (some relation.checkpoint) }

def checkpointPage (overlay : RelationOverlay) (page : Page) : RelationOverlay :=
  { overlay with
    pageCheckpoints := insertNew overlay.pageCheckpoints page.block page.checkpoint }

def insertTid (overlay : RelationOverlay) (tid : Tid) : RelationOverlay :=
  { overlay with insertedTids := pushUnique overlay.insertedTids tid }

def pageAccepts (maxTuplesPerBlock : Option Nat) (tupleLen : Nat) (page : Page) : Bool :=
  page.canFit tupleLen &&
    (match maxTuplesPerBlock with
      | none => true
      | some max => page.linePointers.length < max)

/-- `append_pending_input_tuple_to_existing_page`: the last pending page that
    takes the tuple. -/
def appendPendingTupleToExistingPage (overlay : RelationOverlay) (tuple : Bytes)
    (maxTuplesPerBlock : Option Nat) : RelationOverlay × Option Tid :=
  let accepts := pageAccepts maxTuplesPerBlock tuple.length
  match overlay.pendingPages.reverse.find? accepts with
  | none => (overlay, none)
  | some page =>
    ({ overlay with
        pendingPages := (updateFirst accepts (fun page => (page.appendTupleWithState tuple .pending).1)
          overlay.pendingPages.reverse).reverse },
      (page.appendTupleWithState tuple .pending).2)

/-- `append_pending_input_tuple_to_new_page`; without a tid the page is dropped. -/
def appendPendingTupleToNewPage (overlay : RelationOverlay) (page : Page) (tuple : Bytes) :
    RelationOverlay × Option Tid :=
  match page.appendTupleWithState tuple .pending with
  | (_, none) => (overlay, none)
  | (filled, some tid) =>
    ({ overlay with pendingPages := overlay.pendingPages ++ [filled] }, some tid)

def pendingPage (overlay : RelationOverlay) (block : Nat) : Option Page :=
  overlay.pendingPages.reverse.find? fun page => page.block = block

def pendingLine (overlay : RelationOverlay) (tid : Tid) : Option LinePointer :=
  (overlay.pendingPage tid.block).bind fun page => page.line tid.offset

/-- The state and bytes an own pending page stores at a tid. -/
def pendingRow (overlay : RelationOverlay) (tid : Tid) : Option (LinePointerState × Bytes) :=
  (overlay.pendingPage tid.block).bind fun page => page.row tid.offset

def pendingTupleSlice (overlay : RelationOverlay) (tid : Tid) : Option Bytes :=
  (overlay.pendingPage tid.block).bind fun page => page.tupleSlice tid.offset true

def pendingPageNeedsStableTid (overlay : RelationOverlay) (block : Nat) : Bool :=
  (overlay.hotRedirectInserts ++ overlay.updateRedirectInserts).any fun entry =>
    entry.2.block = block

/-- Change the line pointer of an own pending row; `none` where there is none. -/
def modifyPendingPage (overlay : RelationOverlay) (tid : Tid) (f : Page → Page) :
    Option RelationOverlay :=
  (overlay.pendingLine tid).map fun _ =>
    { overlay with
      pendingPages :=
        (updateFirst (fun page => page.block = tid.block) f overlay.pendingPages.reverse).reverse }

def setPendingInsertMetadata (overlay : RelationOverlay) (tid : Tid) (xmin cmin : Nat) :
    Option RelationOverlay :=
  overlay.modifyPendingPage tid fun page => page.setInsertMetadata tid.offset xmin cmin

def setPendingRowXmax (overlay : RelationOverlay) (tid : Tid) (xmax : Nat) :
    Option RelationOverlay :=
  overlay.modifyPendingPage tid fun page => page.setRowXmax tid.offset xmax

def setInsertCid (overlay : RelationOverlay) (tid : Tid) (cid : Nat) : RelationOverlay :=
  { overlay with insertedCids := upsert overlay.insertedCids tid cid }

def invalidate (overlay : RelationOverlay) (tid : Tid) : RelationOverlay :=
  { overlay with invalidatedTids := pushUnique overlay.invalidatedTids tid }

def setInvalidateMetadata (overlay : RelationOverlay) (tid : Tid) (xid cid : Nat) :
    RelationOverlay :=
  { overlay with invalidatedMetadata := upsert overlay.invalidatedMetadata tid ⟨xid, cid⟩ }

def insertHotRedirect (overlay : RelationOverlay) (oldTid newTid : Tid) : RelationOverlay :=
  if oldTid = newTid then overlay
  else { overlay with hotRedirectInserts := upsert overlay.hotRedirectInserts oldTid newTid }

def insertUpdateRedirect (overlay : RelationOverlay) (oldTid newTid : Tid) : RelationOverlay :=
  if oldTid = newTid then overlay
  else { overlay with updateRedirectInserts := upsert overlay.updateRedirectInserts oldTid newTid }

def deletePrimaryKey (overlay : RelationOverlay) (key : IndexKey) : RelationOverlay :=
  { overlay with primaryKeyDeletes := pushUnique overlay.primaryKeyDeletes key }

def insertPrimaryKey (overlay : RelationOverlay) (key : IndexKey) (tid : Tid) : RelationOverlay :=
  { overlay with primaryKeyInserts := upsert overlay.primaryKeyInserts key tid }

def removePrimaryKeyInsert (overlay : RelationOverlay) (key : IndexKey) : RelationOverlay :=
  { overlay with primaryKeyInserts := remove overlay.primaryKeyInserts key }

def insertIndexEntry (overlay : RelationOverlay) (indexRelid : Nat) (key : IndexKey) (tid : Tid) :
    RelationOverlay :=
  let tids := (lookup overlay.indexInserts (indexRelid, key)).getD []
  { overlay with indexInserts := upsert overlay.indexInserts (indexRelid, key) (pushUnique tids tid) }

/-- `restore_relation_snapshot`: kill what was appended to checkpointed pages
    since the checkpoint, then restore the relation's bookkeeping. -/
def restoreRelationSnapshot (overlay : RelationOverlay) (relation : RelationStorage) :
    RelationStorage :=
  let restored := overlay.pageCheckpoints.foldl
    (fun relation entry => relation.modifyPage entry.1
      (fun page => page.restoreToPreservingTidSpace entry.2) fun _ => rfl) relation
  match overlay.relationCheckpoint with
  | some checkpoint => restored.restoreMetadataPreservingTidSpace checkpoint
  | none => restored

/-- What a clear takes out of an overlay: own pages, rows and key entries. The
    redirects, invalidations and checkpoints stay. -/
def dropRows (overlay : RelationOverlay) : RelationOverlay :=
  { overlay with
    pendingPages := []
    insertedTids := []
    insertedCids := []
    primaryKeyInserts := []
    indexInserts := [] }

/-- `record_relation_clear`: the first clear of a level keeps the relation for
    rollback, without the rows this level appended to it. -/
def recordRelationClear (overlay : RelationOverlay) (relation : RelationStorage) : RelationOverlay :=
  let dropped := overlay.dropRows
  match overlay.clearedRelation with
  | some _ => dropped
  | none => { dropped with clearedRelation := some (dropped.restoreRelationSnapshot relation) }

def insertedCid (overlay : RelationOverlay) (tid : Tid) : Option Nat :=
  if tid ∈ overlay.insertedTids then some ((lookup overlay.insertedCids tid).getD 0) else none

def invalidatedCid (overlay : RelationOverlay) (tid : Tid) : Option Nat :=
  if tid ∈ overlay.invalidatedTids then
    some (((lookup overlay.invalidatedMetadata tid).map DeleteMetadata.cid).getD 0)
  else none

def clearInsertShadowsInvalidation (overlay : RelationOverlay) (tid : Tid) : Bool :=
  overlay.cleared &&
    (match overlay.insertedCid tid with
      | some insertCid =>
        insertShadowsInvalidation insertCid ((overlay.invalidatedCid tid).getD 0)
      | none => false)

def hasVisibilityDeltas (overlay : RelationOverlay) : Bool :=
  !overlay.insertedTids.isEmpty || !overlay.invalidatedTids.isEmpty

/-- Merge index entries key by key. -/
def mergeIndexInserts (entries more : List ((Nat × IndexKey) × List Tid)) :
    List ((Nat × IndexKey) × List Tid) :=
  more.foldl (fun acc entry =>
    upsert acc entry.1 (pushAll ((lookup acc entry.1).getD []) entry.2)) entries

/-- The clearing half of `append_from`: a cleared child also clears the parent. -/
def absorbClear (parent child : RelationOverlay) : RelationOverlay :=
  match child.clearedRelation with
  | none => parent
  | some relation =>
    match parent.clearedRelation with
    | some _ => parent.dropRows
    | none =>
      { parent.dropRows with
        clearedRelation := some (parent.dropRows.restoreRelationSnapshot relation) }

/-- `append_from`: merge a released level into its parent. -/
def appendFrom (parent child : RelationOverlay) : RelationOverlay :=
  let base := parent.absorbClear child
  { base with
    pendingPages := base.pendingPages ++ child.pendingPages
    relationCheckpoint := base.relationCheckpoint.or child.relationCheckpoint
    pageCheckpoints := child.pageCheckpoints.foldl
      (fun acc entry => insertNew acc entry.1 entry.2) base.pageCheckpoints
    insertedTids := pushAll base.insertedTids child.insertedTids
    invalidatedTids := pushAll base.invalidatedTids child.invalidatedTids
    insertedCids := extend base.insertedCids child.insertedCids
    invalidatedMetadata := extend base.invalidatedMetadata child.invalidatedMetadata
    hotRedirectInserts := extend base.hotRedirectInserts child.hotRedirectInserts
    updateRedirectInserts := extend base.updateRedirectInserts child.updateRedirectInserts
    primaryKeyDeletes := pushAll base.primaryKeyDeletes child.primaryKeyDeletes
    primaryKeyInserts := extend base.primaryKeyInserts child.primaryKeyInserts
    indexInserts := mergeIndexInserts base.indexInserts child.indexInserts }

/-- `remap_tids`: rename every tid the overlay mentions, outside its checkpoints. -/
def remapTids (overlay : RelationOverlay) (remaps : List (Tid × Tid)) : RelationOverlay :=
  let rename := remapTid remaps
  { overlay with
    insertedTids := overlay.insertedTids.map rename
    insertedCids := overlay.insertedCids.map fun entry => (rename entry.1, entry.2)
    invalidatedTids := overlay.invalidatedTids.map rename
    invalidatedMetadata := overlay.invalidatedMetadata.map fun entry => (rename entry.1, entry.2)
    hotRedirectInserts := overlay.hotRedirectInserts.map fun entry =>
      (rename entry.1, rename entry.2)
    updateRedirectInserts := overlay.updateRedirectInserts.map fun entry =>
      (rename entry.1, rename entry.2)
    primaryKeyInserts := overlay.primaryKeyInserts.map fun entry => (entry.1, rename entry.2)
    indexInserts := overlay.indexInserts.map fun entry => (entry.1, entry.2.map rename) }

end RelationOverlay

/-! ## Stacks of overlays

A session's open levels for one relation, innermost first.
-/

abbrev Overlays := List RelationOverlay

namespace Overlays

/-- `overlays_own_inserted_tid`: a clear hides the rows of outer levels. -/
def ownInsertedTid : Overlays → Tid → Bool
  | [], _ => false
  | overlay :: rest, tid =>
    if tid ∈ overlay.insertedTids then true
    else if overlay.cleared then false
    else ownInsertedTid rest tid

/-- `overlays_clear_tid`: the tid is of a relation that was cleared since. -/
def clearTid : Overlays → Tid → Bool
  | [], _ => false
  | overlay :: rest, tid =>
    if tid ∈ overlay.insertedTids then false
    else if overlay.cleared then true
    else clearTid rest tid

def insertedCid (overlays : Overlays) (tid : Tid) : Option Nat :=
  overlays.findSome? fun overlay => overlay.insertedCid tid

def ownInsertedTidBefore (overlays : Overlays) (tid : Tid) (curcid : Nat) : Bool :=
  match insertedCid overlays tid with
  | some cid => cid < curcid
  | none => false

/-- Walk outwards to the first level that invalidated the tid, remembering the
    insertion met last; `before` keeps only command ids under a snapshot. -/
def invalidateTidFrom (before : Nat → Bool) : Option Nat → Overlays → Tid → Bool
  | _, [], _ => false
  | later, overlay :: rest, tid =>
    let later := ((overlay.insertedCid tid).filter before).or later
    match (overlay.invalidatedCid tid).filter before with
    | some invalidatedCid =>
      !(overlay.cleared && (match later with
        | some insertCid => insertShadowsInvalidation insertCid invalidatedCid
        | none => false))
    | none => invalidateTidFrom before later rest tid

def invalidateTid (overlays : Overlays) (tid : Tid) : Bool :=
  invalidateTidFrom (fun _ => true) none overlays tid

def invalidateTidBefore (overlays : Overlays) (tid : Tid) (curcid : Nat) : Bool :=
  invalidateTidFrom (fun cid => cid < curcid) none overlays tid

/-- `overlay_tid_redirect`: the innermost HOT redirect of a tid. -/
def tidRedirect (overlays : Overlays) (tid : Tid) : Option Tid :=
  overlays.findSome? fun overlay => lookup overlay.hotRedirectInserts tid

def tidRedirectTarget (overlays : Overlays) (tid : Tid) : Bool :=
  overlays.any fun overlay => overlay.hotRedirectInserts.any fun entry => entry.2 = tid

def updateRedirect (overlays : Overlays) (tid : Tid) : Option Tid :=
  overlays.findSome? fun overlay => lookup overlay.updateRedirectInserts tid

/-- `overlay_pending_tuple_slice`: an own pending tuple, not looked for below a clear. -/
def pendingTupleSlice : Overlays → Tid → Option Bytes
  | [], _ => none
  | overlay :: rest, tid =>
    match overlay.pendingTupleSlice tid with
    | some tuple => some tuple
    | none => if overlay.cleared then none else pendingTupleSlice rest tid

def hasVisibilityDeltas (overlays : Overlays) : Bool :=
  overlays.any RelationOverlay.hasVisibilityDeltas

end Overlays

end FastPg.Storage
