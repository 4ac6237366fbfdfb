import FastPg.Storage.Engine
import FastPg.Lib.Bisect

/-! # Scans

A scan of a relation remembers how many lines every block had when it was
opened, and one cursor per direction. A session without changes in the relation
reads live tids in order; a session with changes also looks at its own rows and
at the roots of HOT chains; and where the relation has no pages, only at its
own rows. A row is returned for its cursor position, which for a HOT chain is
the root, with the tid of the version it found.
-/

namespace FastPg.Storage

open Assoc Redirect Bisect

/-! ## Cursors -/

structure ScanCursor where
  block : Nat
  offset : Nat
  deriving DecidableEq, Repr

def maxBlock : Nat := 2 ^ 32 - 1

def maxOffset : Nat := 2 ^ 16 - 1

namespace ScanCursor

def forwardStart : ScanCursor := ⟨0, 1⟩

def backwardStart : ScanCursor := ⟨maxBlock, maxOffset⟩

def after (tid : Tid) : ScanCursor :=
  if tid.offset < maxOffset then ⟨tid.block, tid.offset + 1⟩
  else ⟨min (tid.block + 1) maxBlock, 1⟩

def before (tid : Tid) : ScanCursor :=
  if 1 < tid.offset then ⟨tid.block, tid.offset - 1⟩
  else if tid.block = 0 then ⟨0, 0⟩
  else ⟨tid.block - 1, maxOffset⟩

/-- The place of the cursor itself. -/
def tid (cursor : ScanCursor) : Tid := ⟨cursor.block, cursor.offset⟩

def beforeCursor (cursor : ScanCursor) : ScanCursor := before cursor.tid

def afterCursor (cursor : ScanCursor) : ScanCursor := after cursor.tid

/-- Past a tid in the direction of the scan. -/
def past (forward : Bool) (tid : Tid) : ScanCursor := if forward then after tid else before tid

end ScanCursor

/-- The number of lines that each block had when the scan was opened. -/
abbrev HighWaterOffsets := List Nat

def tidBeyondHighWater (tid : Tid) (highWater : HighWaterOffsets) : Bool :=
  match highWater[tid.block]? with
  | none => true
  | some maxOffset => maxOffset < tid.offset

/-- Where a forward scan goes on from; a cursor past the blocks is at the end. -/
def scanForwardStartTid (cursor : ScanCursor) (highWater : HighWaterOffsets) : Option Tid :=
  if cursor.offset = 0 ∨ highWater.length ≤ cursor.block then none else some cursor.tid

/-- The last block with a line, and its last line. -/
def lastLine (highWater : HighWaterOffsets) : Option Tid :=
  (highWater.zipIdx.reverse.find? fun entry => 0 < entry.1).map fun entry => ⟨entry.2, entry.1⟩

/-- `scan_backward_end_tid` -/
def scanBackwardEndTid (cursor : ScanCursor) (highWater : HighWaterOffsets) : Option Tid :=
  if cursor.block = maxBlock then lastLine highWater
  else if cursor.offset = 0 ∨ highWater.length ≤ cursor.block then none
  else some cursor.tid

/-! ## The next row -/

/-- A row with the place of the scan it was found at. -/
structure VisibleTuple where
  cursorTid : Tid
  outputTid : Tid
  tuple : Bytes
  deriving DecidableEq, Repr

/-- Try the candidates from a cursor on, until one leads to a row. -/
def scanLoop (candidate : ScanCursor → Option Tid) (visible : Tid → Option VisibleTuple)
    (forward : Bool) : Nat → ScanCursor → Option VisibleTuple
  | 0, _ => none
  | fuel + 1, cursor =>
    match candidate cursor with
    | none => none
    | some tid =>
      match visible tid with
      | some found => some found
      | none => scanLoop candidate visible forward fuel (.past forward tid)

/-- Take a tid into account that is not before the start. -/
def earliest (start : Tid) (highWater : HighWaterOffsets) (candidate : Option Tid) (tid : Tid) :
    Option Tid :=
  if tid < start ∨ tidBeyondHighWater tid highWater then candidate
  else some (candidate.elim tid fun current => min current tid)

/-- Take a tid into account that is not after the end. -/
def latest (stop : Tid) (highWater : HighWaterOffsets) (candidate : Option Tid) (tid : Tid) :
    Option Tid :=
  if stop < tid ∨ tidBeyondHighWater tid highWater then candidate
  else some (candidate.elim tid fun current => max current tid)

/-- The rows of all levels, the outermost level first. -/
def Overlays.allInserted (overlays : Overlays) : List Tid :=
  overlays.reverse.flatMap RelationOverlay.insertedTids

namespace RelationStorage

def isHotRedirectRoot (relation : RelationStorage) (tid : Tid) : Bool :=
  tid ∈ relation.hotRedirectRoots

def isHotRedirectTarget (relation : RelationStorage) (tid : Tid) : Bool :=
  tid ∈ relation.hotRedirectTargets

def hotRedirectRootForTarget (relation : RelationStorage) (tid : Tid) : Option Tid :=
  lookup relation.hotRedirectTargetRoots tid

/-- The tuple a session sees at a tid, with or without a snapshot. -/
def sliceFor (relation : RelationStorage) (overlays : Overlays) (curcid : Option Nat) (tid : Tid) :
    Option Bytes :=
  match curcid with
  | some curcid => relation.physicalVisibleTupleSliceAtCid overlays tid curcid
  | none => relation.physicalVisibleTupleSlice overlays tid

/-- `next_forward_candidate_tid_in_overlays` -/
def nextForwardCandidateTid (relation : RelationStorage) (overlays : Overlays)
    (highWater : HighWaterOffsets) (cursor : ScanCursor) : Option Tid :=
  (scanForwardStartTid cursor highWater).bind fun start =>
    let within := fun tid => start ≤ tid && !tidBeyondHighWater tid highWater
    let live := relation.liveTids.elems.find? within
    let root := relation.hotRedirectRoots.elems.find? within
    let committed := match live, root with
      | some live, some root => some (min live root)
      | some live, none => some live
      | none, root => root
    overlays.allInserted.foldl (earliest start highWater) committed

/-- `next_backward_candidate_tid_in_overlays` -/
def nextBackwardCandidateTid (relation : RelationStorage) (overlays : Overlays)
    (highWater : HighWaterOffsets) (cursor : ScanCursor) : Option Tid :=
  (scanBackwardEndTid cursor highWater).bind fun stop =>
    let within := fun tid => tid ≤ stop && !tidBeyondHighWater tid highWater
    let live := relation.liveTids.elems.reverse.find? within
    let root := relation.hotRedirectRoots.elems.reverse.find? within
    let committed := match live, root with
      | some live, some root => some (max live root)
      | some live, none => some live
      | none, root => root
    overlays.allInserted.foldl (latest stop highWater) committed

def nextCandidateTid (relation : RelationStorage) (overlays : Overlays)
    (highWater : HighWaterOffsets) (forward : Bool) (cursor : ScanCursor) : Option Tid :=
  if forward then relation.nextForwardCandidateTid overlays highWater cursor
  else relation.nextBackwardCandidateTid overlays highWater cursor

/-- `visible_update_redirect_tid_beyond_high_water` -/
def updateRedirectBeyondHighWater (relation : RelationStorage) (overlays : Overlays)
    (highWater : HighWaterOffsets) (curcid : Option Nat) (tid : Tid) : Option Tid :=
  match relation.updateNext overlays tid with
  | none => none
  | some next =>
    let redirect := relation.resolveUpdateRedirect overlays tid
    if tidBeyondHighWater next highWater && tidBeyondHighWater redirect highWater &&
        (relation.sliceFor overlays curcid redirect).isSome then some redirect
    else none

/-- The last version of the HOT chain of a tid, where it is another one. -/
def hotVersion (relation : RelationStorage) (overlays : Overlays) (curcid : Option Nat) (tid : Tid) :
    Option VisibleTuple :=
  if (overlays.tidRedirect tid).isSome || relation.isHotRedirectRoot tid then
    let hotTid := relation.resolveTidRedirect overlays tid
    if hotTid = tid then none
    else (relation.sliceFor overlays curcid hotTid).map fun tuple => ⟨tid, hotTid, tuple⟩
  else none

/-- The row that a candidate leads to: none for the target of a HOT redirect,
    else its own version, the last one of its HOT chain, or one beyond the high
    water that an update put there. -/
def visibleCandidate (relation : RelationStorage) (overlays : Overlays)
    (highWater : HighWaterOffsets) (curcid : Option Nat) (tid : Tid) : Option VisibleTuple :=
  if overlays.tidRedirectTarget tid || relation.isHotRedirectTarget tid then none
  else match relation.sliceFor overlays curcid tid with
    | some tuple => some ⟨tid, tid, tuple⟩
    | none =>
      match relation.hotVersion overlays curcid tid with
      | some found => some found
      | none =>
        (relation.updateRedirectBeyondHighWater overlays highWater curcid tid).bind fun redirect =>
          (relation.sliceFor overlays curcid redirect).map fun tuple => ⟨tid, redirect, tuple⟩

/-- More than the candidates there are. -/
def scanFuel (relation : RelationStorage) (overlays : Overlays) : Nat :=
  relation.liveTids.elems.length + relation.hotRedirectRoots.elems.length +
    overlays.allInserted.length + 1

/-- `next_visible_tuple_slice_in_overlays` -/
def nextVisibleTupleSlice (relation : RelationStorage) (overlays : Overlays)
    (highWater : HighWaterOffsets) (forward : Bool) (curcid : Option Nat) (cursor : ScanCursor) :
    Option VisibleTuple :=
  scanLoop (relation.nextCandidateTid overlays highWater forward)
    (relation.visibleCandidate overlays highWater curcid) forward (relation.scanFuel overlays) cursor

/-- A live tid that is within the high water, with its tuple. -/
def committedTuple (relation : RelationStorage) (highWater : HighWaterOffsets) (tid : Tid) :
    Option VisibleTuple :=
  if tidBeyondHighWater tid highWater then none
  else (relation.tupleSlice tid false).map fun tuple => ⟨tid, tid, tuple⟩

/-- `next_committed_tuple_slice`: only the next live tid is looked at. -/
def nextCommittedTupleSlice (relation : RelationStorage) (highWater : HighWaterOffsets)
    (forward : Bool) (cursor : ScanCursor) : Option VisibleTuple :=
  if forward then
    (scanForwardStartTid cursor highWater).bind fun start =>
      (relation.liveTids.elems.find? (start ≤ ·)).bind (relation.committedTuple highWater)
  else
    let stop : Option Tid := if cursor.block = maxBlock then
        highWater.getLast?.map fun offset => ⟨highWater.length - 1, offset⟩
      else if cursor.offset = 0 then none
      else some cursor.tid
    stop.bind fun stop =>
      (relation.liveTids.elems.reverse.find? (· ≤ stop)).bind (relation.committedTuple highWater)

end RelationStorage

/-! ## Own rows only -/

/-- `next_single_overlay_candidate_tid`: the rows are searched as if they were
    in order. -/
def nextSingleOverlayCandidateTid (overlay : RelationOverlay) (highWater : HighWaterOffsets)
    (forward : Bool) (cursor : ScanCursor) : Option Tid :=
  let within := fun tid => !tidBeyondHighWater tid highWater
  if overlay.insertedTids.isEmpty then none
  else if forward then
    (scanForwardStartTid cursor highWater).bind fun start =>
      (overlay.insertedTids.drop (fromIndex overlay.insertedTids start)).find? within
  else
    (scanBackwardEndTid cursor highWater).bind fun stop =>
      (overlay.insertedTids.take (toIndex overlay.insertedTids stop)).reverse.find? within

namespace Overlays

/-- `overlay_visible_tuple_slice` -/
def visibleSlice (overlays : Overlays) (curcid : Option Nat) (tid : Tid) : Option Bytes :=
  match overlays with
  | [overlay] =>
    if singleOverlayTidVisibility overlay tid curcid = some true then overlay.pendingTupleSlice tid
    else none
  | overlays =>
    let hidden := match curcid with
      | some curcid => overlays.invalidateTidBefore tid curcid ||
          overlays.ownInsertedTid tid && !overlays.ownInsertedTidBefore tid curcid
      | none => overlays.invalidateTid tid
    if hidden then none
    else if overlays.clearTid tid then none
    else overlays.pendingTupleSlice tid

/-- The walk over all rows in `next_overlay_candidate_tid`. -/
def nextAnyCandidateTid (overlays : Overlays) (highWater : HighWaterOffsets) (forward : Bool)
    (cursor : ScanCursor) : Option Tid :=
  if forward then
    (scanForwardStartTid cursor highWater).bind fun start =>
      overlays.allInserted.foldl (earliest start highWater) none
  else
    (scanBackwardEndTid cursor highWater).bind fun stop =>
      overlays.allInserted.foldl (latest stop highWater) none

/-- `next_overlay_candidate_tid`: a single level is searched first. -/
def nextCandidateTid (overlays : Overlays) (highWater : HighWaterOffsets) (forward : Bool)
    (cursor : ScanCursor) : Option Tid :=
  match overlays with
  | [overlay] =>
    (nextSingleOverlayCandidateTid overlay highWater forward cursor).or
      (nextAnyCandidateTid [overlay] highWater forward cursor)
  | overlays => nextAnyCandidateTid overlays highWater forward cursor

/-- `visible_overlay_update_redirect_tid_beyond_high_water` -/
def updateRedirectBeyondHighWater (overlays : Overlays) (highWater : HighWaterOffsets)
    (curcid : Option Nat) (tid : Tid) : Option Tid :=
  match overlays.updateRedirect tid with
  | none => none
  | some next =>
    let redirect := overlays.resolveUpdate tid
    if tidBeyondHighWater next highWater && tidBeyondHighWater redirect highWater &&
        (overlays.visibleSlice curcid redirect).isSome then some redirect
    else none

/-- The row that an own candidate leads to. -/
def visibleCandidate (overlays : Overlays) (highWater : HighWaterOffsets) (curcid : Option Nat)
    (tid : Tid) : Option VisibleTuple :=
  if overlays.tidRedirectTarget tid then none
  else match overlays.visibleSlice curcid tid with
    | some tuple => some ⟨tid, tid, tuple⟩
    | none =>
      let hotTid := overlays.resolveTid tid
      let hot : Option VisibleTuple := if hotTid = tid then none
        else (overlays.visibleSlice curcid hotTid).map fun tuple => ⟨tid, hotTid, tuple⟩
      match hot with
      | some found => some found
      | none =>
        (overlays.updateRedirectBeyondHighWater highWater curcid tid).bind fun redirect =>
          (overlays.visibleSlice curcid redirect).map fun tuple => ⟨tid, redirect, tuple⟩

/-- `next_overlay_tuple_slice` -/
def nextTupleSlice (overlays : Overlays) (highWater : HighWaterOffsets) (forward : Bool)
    (curcid : Option Nat) (cursor : ScanCursor) : Option VisibleTuple :=
  scanLoop (overlays.nextCandidateTid highWater forward) (overlays.visibleCandidate highWater curcid)
    forward (overlays.allInserted.length + 1) cursor

end Overlays

/-! ## Scan handles -/

/-- The state of an open scan. The relation it is of is kept with the handle. -/
structure ScanState where
  highWater : HighWaterOffsets
  forwardCursor : ScanCursor
  backwardCursor : ScanCursor
  forwardExhausted : Bool
  backwardExhausted : Bool
  hasVisibilityDeltas : Bool
  overlayOnly : Bool
  snapshotCurcid : Option Nat
  deriving DecidableEq, Repr

/-- Lines are counted in sixteen bits. -/
def lineCount (page : Page) : Nat :=
  if page.linePointers.length ≤ maxOffset then page.linePointers.length else 0

def RelationStorage.highWaterOffsets (relation : RelationStorage) : HighWaterOffsets :=
  relation.pages.map fun page => (page.map lineCount).getD 0

/-- `extend_high_water_offsets` -/
def RelationOverlay.extendHighWaterOffsets (highWater : HighWaterOffsets)
    (overlay : RelationOverlay) : HighWaterOffsets :=
  overlay.pendingPages.foldl (fun highWater page =>
    (highWater ++ List.replicate (page.block + 1 - highWater.length) 0).modify page.block
      (max · (lineCount page))) highWater

namespace ScanState

/-- A scan at its start. -/
def opened (highWater : HighWaterOffsets) (hasVisibilityDeltas overlayOnly : Bool)
    (curcid : Option Nat) : ScanState :=
  ⟨highWater, .forwardStart, .backwardStart, false, false, hasVisibilityDeltas, overlayOnly, curcid⟩

/-- `scan_begin_impl`, after `scan_begin_committed_empty_impl`. -/
def scanBegin (relation : RelationStorage) (overlays : Overlays) (rowCount : Nat)
    (curcid : Option Nat) : ScanState :=
  let deltas := overlays.hasVisibilityDeltas
  if rowCount = 0 ∧ relation.physicalBlocks.elems.isEmpty ∧ deltas then
    opened (overlays.reverse.foldl RelationOverlay.extendHighWaterOffsets []) deltas true curcid
  else
    opened (overlays.reverse.foldl RelationOverlay.extendHighWaterOffsets relation.highWaterOffsets)
      deltas (relation.liveTids.elems.isEmpty && relation.pendingTupleCount = 0 &&
        relation.physicalBlocks.elems.isEmpty) curcid

/-- `scan_reset` -/
def scanReset (scan : ScanState) (overlays : Overlays) : ScanState :=
  opened scan.highWater overlays.hasVisibilityDeltas scan.overlayOnly scan.snapshotCurcid

/-- `scan_set_position`, for a tid that can be unpacked. -/
def scanSetPosition (scan : ScanState) (tid : Tid) : ScanState :=
  if tid.offset = 0 then scan
  else { scan with
    forwardCursor := .after tid
    backwardCursor := .before tid
    forwardExhausted := false
    backwardExhausted := false }

def exhausted (scan : ScanState) (forward : Bool) : Bool :=
  if forward then scan.forwardExhausted else scan.backwardExhausted

def cursor (scan : ScanState) (forward : Bool) : ScanCursor :=
  if forward then scan.forwardCursor else scan.backwardCursor

/-- The next row of the scan, by the way it was opened for. -/
def nextSlice (scan : ScanState) (relation : RelationStorage) (overlays : Overlays)
    (forward : Bool) (cursor : ScanCursor) : Option VisibleTuple :=
  if !scan.hasVisibilityDeltas then relation.nextCommittedTupleSlice scan.highWater forward cursor
  else if scan.overlayOnly then
    overlays.nextTupleSlice scan.highWater forward scan.snapshotCurcid cursor
  else relation.nextVisibleTupleSlice overlays scan.highWater forward scan.snapshotCurcid cursor

/-- Nothing is left in this direction; the way back starts at the last place. -/
def finish (scan : ScanState) (forward : Bool) : ScanState :=
  if forward then
    { scan with
      backwardCursor := .beforeCursor scan.forwardCursor
      forwardExhausted := true
      backwardExhausted := false }
  else
    { scan with
      forwardCursor := .afterCursor scan.backwardCursor
      backwardExhausted := true
      forwardExhausted := false }

/-- A row was returned for this place. -/
def moveTo (scan : ScanState) (forward : Bool) (tid : Tid) : ScanState :=
  { scan with
    forwardCursor := .after tid
    backwardCursor := .before tid
    forwardExhausted := if forward then scan.forwardExhausted else false
    backwardExhausted := if forward then false else scan.backwardExhausted }

end ScanState

/-! ## Returning rows -/

/-- A row as it is handed to the caller. -/
structure ScannedRow where
  tid : Tid
  cursorTid : Tid
  storedNatts : Nat
  values : List DecodedDatum
  deriving DecidableEq, Repr

/-- `copy_tuple_to_outputs`: `natts` attributes, of which those that are not
    stored are null, and the number of stored ones. -/
def copyTupleToOutputs (tuple : Bytes) (natts : Nat) : Option (Nat × List DecodedDatum) := do
  if tuple.length < tupleHeaderLen ∨ tuple.take 4 ≠ tupleMagic then none
  else
    let stored ← readWord tuple 4 2
    if tuple.length < payloadOffset stored then none
    else
      let values ← (List.range (min stored natts)).mapM
        (decodeAttr tuple (attrDirOffset stored) (payloadOffset stored))
      some (stored, values ++ List.replicate (natts - min stored natts) .null)

/-- Copy a row to the outputs under the given tid of its place. -/
def VisibleTuple.copy (visible : VisibleTuple) (cursorTid : Tid) (natts : Nat) : Option ScannedRow :=
  (copyTupleToOutputs visible.tuple natts).map fun copied =>
    ⟨visible.outputTid, cursorTid, copied.1, copied.2⟩

namespace ScanState

variable (relation : RelationStorage) (overlays : Overlays) (natts : Nat)

/-- `scan_next_impl`: without own changes the scan moves before the row is
    copied, and the place that is reported is the root of its HOT chain. -/
def scanNext (scan : ScanState) (forward : Bool) : ScanState × Option ScannedRow :=
  if scan.exhausted forward then (scan, none)
  else match scan.nextSlice relation overlays forward (scan.cursor forward) with
    | none => (scan.finish forward, none)
    | some visible =>
      if !scan.hasVisibilityDeltas then
        (scan.moveTo forward visible.cursorTid, visible.copy
          ((relation.hotRedirectRootForTarget visible.outputTid).getD visible.cursorTid) natts)
      else match visible.copy visible.cursorTid natts with
        | none => (scan, none)
        | some row => (scan.moveTo forward visible.cursorTid, some row)

/-- The variables of the batch loop. -/
structure Batch where
  forwardCursor : ScanCursor
  backwardCursor : ScanCursor
  rows : List ScannedRow
  exhausted : Bool

/-- The loop of `scan_next_batch_impl`, for the rows that are still wanted. -/
def batchLoop (scan : ScanState) (forward : Bool) : Nat → Batch → Batch
  | 0, batch => batch
  | wanted + 1, batch =>
    let cursor := if forward then batch.forwardCursor else batch.backwardCursor
    match scan.nextSlice relation overlays forward cursor with
    | none =>
      if forward then
        { batch with backwardCursor := .beforeCursor batch.forwardCursor, exhausted := true }
      else { batch with forwardCursor := .afterCursor batch.backwardCursor, exhausted := true }
    | some visible =>
      match visible.copy visible.cursorTid natts with
      | none => batch
      | some row =>
        batchLoop scan forward wanted
          { batch with
            forwardCursor := .after visible.cursorTid
            backwardCursor := .before visible.cursorTid
            rows := batch.rows ++ [row] }

/-- `scan_next_batch_impl`: at most `maxRows` rows. -/
def scanNextBatch (scan : ScanState) (forward : Bool) (maxRows : Nat) :
    ScanState × List ScannedRow :=
  if scan.exhausted forward then (scan, [])
  else
    let batch := scan.batchLoop relation overlays natts forward maxRows
      ⟨scan.forwardCursor, scan.backwardCursor, [], false⟩
    let scan := { scan with
      forwardCursor := batch.forwardCursor
      backwardCursor := batch.backwardCursor }
    let scan := if batch.rows.isEmpty then scan
      else if forward then { scan with backwardExhausted := false }
      else { scan with forwardExhausted := false }
    let scan := if !batch.exhausted then scan
      else if forward then { scan with forwardExhausted := true, backwardExhausted := false }
      else { scan with backwardExhausted := true, forwardExhausted := false }
    (scan, batch.rows)

end ScanState

end FastPg.Storage
