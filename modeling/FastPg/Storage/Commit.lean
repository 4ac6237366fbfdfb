import FastPg.Storage.Local

/-! # Publishing a transaction

Committing moves the pending pages of the merged overlay into the relation,
either as they are or row by row into shared pages, renames the tids the
overlay mentions, and applies its rows, invalidations, redirects and key
entries in that order. Running out of blocks here stops the server; such a
commit has no result.
-/

namespace FastPg.Storage

open Assoc

namespace Local

/-- A relation nothing was ever stored in. -/
def untouched (relation : RelationStorage) : Bool :=
  relation.liveTupleCount = 0 && relation.pendingTupleCount = 0 && relation.deadTupleCount = 0 &&
    relation.physicalBlocks.elems.isEmpty

/-- The relation with the renamings made so far. -/
abbrev Publishing := RelationStorage × List (Tid × Tid)

/-- Re-append one row of a pending page to a shared page. -/
def publishRow (page : Page) (state : Publishing) (index : Nat) : Option Publishing := do
  let (relation, remaps) := state
  let oldTid : Tid := ⟨page.block, index + 1⟩
  match page.line (index + 1), page.tupleSlice (index + 1) true with
  | some line, some tuple =>
    let (relation, block) := relation.appendTargetBlock tuple.length
    let block ← block
    let (relation, newTid) := relation.appendPendingTuple block tuple
    let newTid ← newTid
    let relation := (relation.setInsertMetadata newTid line.xmin line.cmin).setRowXmax newTid line.xmax
    let relation := if oldTid = newTid then relation
      else { relation with
        hotRedirects := upsert relation.hotRedirects oldTid newTid
        updateRedirects := upsert relation.updateRedirects oldTid newTid }
    some (relation, remaps ++ [(oldTid, newTid)])
  | _, _ => some (relation, remaps)

/-- A page that redirects lead into keeps its tids, and so does the first page
    of an untouched relation. -/
def publishPage (overlay : RelationOverlay) (state : Publishing) (page : Page) :
    Option Publishing :=
  let (relation, remaps) := state
  let relation := { relation with
    pendingReservedBlocks := relation.pendingReservedBlocks.erase page.block }
  if overlay.pendingPageNeedsStableTid page.block || untouched relation then
    some (relation.insertPage page, remaps)
  else (List.range page.linePointers.length).foldlM (publishRow page) (relation, remaps)

/-- Apply one invalidation, unless a row inserted after a clear took its tid. -/
def publishInvalidation (overlay : RelationOverlay) (relation : RelationStorage) (tid : Tid) :
    RelationStorage :=
  if overlay.clearInsertShadowsInvalidation tid then relation
  else
    let relation := (relation.markDead tid).1
    match lookup overlay.invalidatedMetadata tid with
    | some metadata =>
      { relation with
        rowDeleteXids := upsert relation.rowDeleteXids tid metadata.xid
        rowDeleteCids := upsert relation.rowDeleteCids tid metadata.cid }
    | none => relation

/-- Publish the key entries whose row is live. -/
def publishKeys (overlay : RelationOverlay) (relation : RelationStorage) : RelationStorage :=
  let dropped := overlay.primaryKeyDeletes.foldl remove relation.primaryKeyIndex
  let relation := { relation with
    primaryKeyIndex := overlay.primaryKeyInserts.foldl (fun index entry =>
      if (relation.tupleSlice entry.2 false).isSome then upsert index entry.1 entry.2 else index)
      dropped }
  overlay.indexInserts.foldl (fun relation entry =>
    entry.2.foldl (fun relation tid =>
      if (relation.tupleSlice tid false).isSome then
        relation.insertIndexEntry entry.1.1 entry.1.2 tid
      else relation) relation) relation

/-- Everything after the pages: the overlay is already renamed. -/
def publishChanges (overlay : RelationOverlay) (relation : RelationStorage) : RelationStorage :=
  let relation := overlay.insertedTids.foldl (fun relation tid => (relation.markLive tid).1) relation
  let relation := overlay.invalidatedTids.foldl (publishInvalidation overlay) relation
  let relation := overlay.hotRedirectInserts.foldl
    (fun relation entry => relation.insertHotRedirect entry.1 entry.2) relation
  let relation := { relation with
    updateRedirects := extend relation.updateRedirects overlay.updateRedirectInserts }
  publishKeys overlay relation

/-- `commit_overlay_to_relations` for one relation. -/
def commitOverlay (relation : RelationStorage) (overlay : RelationOverlay) :
    Option RelationStorage := do
  let (relation, remaps) ← overlay.pendingPages.foldlM (publishPage overlay) (relation, [])
  some (publishChanges (overlay.remapTids remaps) relation)

/-- Release every level into the next outer one. -/
def mergeAll : RelationOverlay → Overlays → RelationOverlay
  | top, [] => top
  | top, parent :: rest => mergeAll (parent.appendFrom top) rest

/-- Commit all levels. -/
def commitAll (here : Local) : Option RelationStorage :=
  match here.overlays with
  | [] => some here.relation
  | top :: rest => commitOverlay here.relation (mergeAll top rest)

end Local

end FastPg.Storage
