import FastPg.Storage.Lossless
import FastPg.Storage.Written
import FastPg.Storage.Rollback

/-! # Batches

A batch of a scan is taken in one loop that keeps cursors of its own and writes
them back at the end. It does what as many single steps do: the same rows, the
same cursors, the same exhaustion. Only the reported place of a row can differ:
a single step of a session without changes reports the root of a HOT chain, a
batch the row itself.
-/

namespace FastPg.Storage

open Transition List Option RelationStorage Overlays

/-- What a caller reads of a row. -/
def ScannedRow.output (row : ScannedRow) : Tid × Nat × List DecodedDatum :=
  (row.tid, row.storedNatts, row.values)

/-! ## A scan finds written tuples -/

/-- What the loop returns is what some candidate led to. -/
theorem scanLoop_visible {candidate : ScanCursor → Option Tid} {visible : Tid → Option VisibleTuple}
    {forward : Bool} {fuel : Nat} {cursor : ScanCursor} {found : VisibleTuple}
    (h : scanLoop candidate visible forward fuel cursor = some found) :
    ∃ tid, (∃ cursor, candidate cursor = some tid) ∧ visible tid = some found := by
  induction fuel generalizing cursor with
  | zero => cases h
  | succ fuel ih =>
    unfold scanLoop at h
    cases next : candidate cursor with
    | none => simp [next] at h
    | some tid =>
      cases here : visible tid with
      | some row =>
        simp only [next, here] at h
        exact ⟨tid, ⟨cursor, next⟩, here.trans h⟩
      | none =>
        simp only [next, here] at h
        exact ih h

/-- A row found from a place, with the tuple that is read at its tid. -/
structure VisibleTuple.FoundBy (read : Tid → Option Bytes) (place : Tid) (found : VisibleTuple) :
    Prop where
  cursorTid : found.cursorTid = place
  tuple : read found.outputTid = some found.tuple

section Found

variable {relation : RelationStorage} {overlays : Overlays} {highWater : HighWaterOffsets}
  {curcid : Option Nat} {tid : Tid} {found : VisibleTuple}

theorem VisibleTuple.FoundBy.of_map {read : Tid → Option Bytes} {place outputTid : Tid}
    (made : (read outputTid).map (fun tuple => (⟨place, outputTid, tuple⟩ : VisibleTuple)) =
      some found) : found.FoundBy read place := by
  obtain ⟨tuple, seen, rfl⟩ := map_eq_some_iff.mp made
  exact ⟨rfl, seen⟩

theorem RelationStorage.committedTuple_found
    (seen : relation.committedTuple highWater tid = some found) :
    found.FoundBy (relation.tupleSlice · false) tid := by
  rw [committedTuple, ite_none_left_eq_some] at seen
  exact .of_map seen.2

theorem RelationStorage.visibleCandidate_found
    (seen : relation.visibleCandidate overlays highWater curcid tid = some found) :
    found.FoundBy (relation.sliceFor overlays curcid) tid := by
  unfold visibleCandidate at seen
  rw [ite_none_left_eq_some] at seen
  obtain ⟨-, seen⟩ := seen
  split at seen
  · rename_i here
    cases seen
    exact ⟨rfl, here⟩
  · split at seen
    · rename_i hot
      cases seen
      unfold hotVersion at hot
      split at hot
      · dsimp only at hot
        rw [ite_none_left_eq_some] at hot
        exact .of_map hot.2
      · cases hot
    · obtain ⟨redirect, -, made⟩ := bind_eq_some_iff.mp seen
      exact .of_map made

theorem Overlays.visibleCandidate_found
    (seen : overlays.visibleCandidate highWater curcid tid = some found) :
    found.FoundBy (overlays.visibleSlice curcid) tid := by
  unfold visibleCandidate at seen
  rw [ite_none_left_eq_some] at seen
  obtain ⟨-, seen⟩ := seen
  split at seen
  · rename_i here
    cases seen
    exact ⟨rfl, here⟩
  · dsimp only at seen
    split at seen
    · rename_i hot
      cases seen
      rw [ite_none_left_eq_some] at hot
      exact .of_map hot.2
    · obtain ⟨redirect, -, made⟩ := bind_eq_some_iff.mp seen
      exact .of_map made

end Found

namespace Local.Written

variable {relation : RelationStorage} {overlays : Overlays} {highWater : HighWaterOffsets}
  {curcid : Option Nat} {tid : Tid} {tuple : Bytes} {found : VisibleTuple}

section

variable (written : Local.Written ⟨relation, overlays⟩)
include written

theorem sliceFor (seen : relation.sliceFor overlays curcid tid = some tuple) : Encoded tuple := by
  cases curcid with
  | none => exact written.physicalVisibleTupleSlice seen
  | some curcid => exact written.physicalVisibleTupleSliceAtCid seen

theorem visibleSlice (seen : overlays.visibleSlice curcid tid = some tuple) : Encoded tuple := by
  unfold Overlays.visibleSlice at seen
  split at seen
  · rename_i overlay
    split at seen
    · exact ((written.levels overlay (mem_singleton_self _)).pendingTupleSlice seen).1
    · cases seen
  · simp only [ite_none_left_eq_some] at seen
    exact (own_of_pendingTupleSlice written.levels seen.2.2).1

theorem nextSlice {scan : ScanState} {forward : Bool} {cursor : ScanCursor}
    (seen : scan.nextSlice relation overlays forward cursor = some found) :
    Encoded found.tuple := by
  unfold ScanState.nextSlice at seen
  split at seen
  · unfold nextCommittedTupleSlice at seen
    split at seen
    · obtain ⟨start, -, seen⟩ := bind_eq_some_iff.mp seen
      obtain ⟨tid, -, seen⟩ := bind_eq_some_iff.mp seen
      exact written.relation.tupleSlice (committedTuple_found seen).tuple
    · obtain ⟨start, -, seen⟩ := bind_eq_some_iff.mp seen
      obtain ⟨tid, -, seen⟩ := bind_eq_some_iff.mp seen
      exact written.relation.tupleSlice (committedTuple_found seen).tuple
  · split at seen
    · obtain ⟨tid, -, seen⟩ := scanLoop_visible seen
      exact written.visibleSlice (visibleCandidate_found seen).tuple
    · obtain ⟨tid, -, seen⟩ := scanLoop_visible seen
      exact written.sliceFor (visibleCandidate_found seen).tuple

end

end Local.Written

/-! ## Runs of a scan -/

namespace ScanState

section Runs

variable (relation : RelationStorage) (overlays : Overlays) (natts : Nat)

/-- One step for every direction, with the rows that were returned. -/
def scanSingly (scan : ScanState) : List Bool → ScanState × List ScannedRow
  | [] => (scan, [])
  | forward :: rest =>
    let (next, row) := scan.scanNext relation overlays natts forward
    let (final, rows) := next.scanSingly rest
    (final, row.toList ++ rows)

/-- One batch for every direction and size, with the rows that were returned. -/
def scanBatches (scan : ScanState) : List (Bool × Nat) → ScanState × List ScannedRow
  | [] => (scan, [])
  | (forward, size) :: rest =>
    let (next, rows) := scan.scanNextBatch relation overlays natts forward size
    let (final, more) := next.scanBatches rest
    (final, rows ++ more)

/-- The row with the place that a single step reports for it. -/
def reported (scan : ScanState) (row : ScannedRow) : ScannedRow :=
  if scan.hasVisibilityDeltas then row
  else { row with
    cursorTid := (relation.hotRedirectRootForTarget row.tid).getD row.cursorTid }

end Runs

/-- The scan as a batch has moved it so far. -/
def resume (scan : ScanState) (forward : Bool) (batch : Batch) : ScanState :=
  { scan with
    forwardCursor := batch.forwardCursor
    backwardCursor := batch.backwardCursor
    forwardExhausted := if forward || batch.rows.isEmpty then scan.forwardExhausted else false
    backwardExhausted := if !forward || batch.rows.isEmpty then scan.backwardExhausted else false }

/-- The end was met in this direction. -/
def close (scan : ScanState) (forward : Bool) : ScanState :=
  { scan with forwardExhausted := forward, backwardExhausted := !forward }

variable {relation : RelationStorage} {overlays : Overlays} {natts : Nat} {scan : ScanState}
  {forward : Bool} {found : VisibleTuple} (batch : Batch)

theorem scanNextBatch_eq (maxRows : Nat) (running : scan.exhausted forward = false) :
    scan.scanNextBatch relation overlays natts forward maxRows =
      let batch := scan.batchLoop relation overlays natts forward maxRows
        ⟨scan.forwardCursor, scan.backwardCursor, [], false⟩
      (if batch.exhausted then (scan.resume forward batch).close forward
        else scan.resume forward batch, batch.rows) := by
  unfold scanNextBatch
  rw [running]
  simp only [Bool.false_eq_true, if_false]
  generalize scan.batchLoop relation overlays natts forward maxRows
    ⟨scan.forwardCursor, scan.backwardCursor, [], false⟩ = batch
  cases forward <;> cases batch.exhausted <;> cases empty : batch.rows.isEmpty <;>
    simp [resume, close, empty]

theorem resume_start :
    scan.resume forward ⟨scan.forwardCursor, scan.backwardCursor, [], false⟩ = scan := by
  simp [resume]

theorem resume_exhausted :
    (scan.resume forward batch).exhausted forward = scan.exhausted forward := by
  cases forward <;> simp [resume, exhausted]

theorem nextSlice_resume :
    (scan.resume forward batch).nextSlice relation overlays forward =
      scan.nextSlice relation overlays forward := rfl

theorem resume_moveTo (tid : Tid) (row : ScannedRow) :
    (scan.resume forward batch).moveTo forward tid = scan.resume forward
      { batch with
        forwardCursor := .after tid
        backwardCursor := .before tid
        rows := batch.rows ++ [row] } := by
  cases forward <;> simp [resume, moveTo]

/-- Steps at the end of the scan change nothing. -/
theorem scanSingly_exhausted (ended : scan.exhausted forward = true) (count : Nat) :
    scan.scanSingly relation overlays natts (replicate count forward) = (scan, []) := by
  induction count with
  | zero => rfl
  | succ count ih => simp [replicate_succ, scanSingly, scanNext, ended, ih]

/-- A row that is found can be copied, and the scan moves on to it. -/
theorem scanNext_found (written : Local.Written ⟨relation, overlays⟩) {visible : VisibleTuple}
    (running : scan.exhausted forward = false)
    (found : scan.nextSlice relation overlays forward (scan.cursor forward) = some visible) :
    ∃ row, visible.copy visible.cursorTid natts = some row ∧
      scan.scanNext relation overlays natts forward =
        (scan.moveTo forward visible.cursorTid, some (scan.reported relation row)) := by
  obtain ⟨copied, copy⟩ := isSome_iff_exists.mp ((written.nextSlice found).copied natts)
  refine ⟨⟨visible.outputTid, visible.cursorTid, copied.1, copied.2⟩, by
    simp [VisibleTuple.copy, copy], ?_⟩
  unfold scanNext
  rw [running, found]
  cases deltas : scan.hasVisibilityDeltas <;> simp [deltas, VisibleTuple.copy, copy, reported]

theorem scanNext_end (running : scan.exhausted forward = false)
    (none_ : scan.nextSlice relation overlays forward (scan.cursor forward) = none) :
    scan.scanNext relation overlays natts forward = (scan.finish forward, none) := by
  simp [scanNext, running, none_]

/-- The loop of a batch, against as many single steps. The batch has moved the
    scan so far, and has not met the end. -/
theorem batchLoop_singly (written : Local.Written ⟨relation, overlays⟩)
    (running : scan.exhausted forward = false) (wanted : Nat) (batch : Batch)
    (open_ : batch.exhausted = false) :
    let final := scan.batchLoop relation overlays natts forward wanted batch
    ∃ rows, final.rows = batch.rows ++ rows ∧
      (scan.resume forward batch).scanSingly relation overlays natts (replicate wanted forward) =
        (if final.exhausted then (scan.resume forward final).close forward
          else scan.resume forward final, rows.map (scan.reported relation)) := by
  induction wanted generalizing batch with
  | zero => exact ⟨[], by simp [batchLoop], by simp [batchLoop, scanSingly, open_]⟩
  | succ wanted ih =>
    have going : (scan.resume forward batch).exhausted forward = false :=
      (resume_exhausted batch).trans running
    have cursor : (scan.resume forward batch).cursor forward =
        if forward then batch.forwardCursor else batch.backwardCursor := rfl
    cases next : scan.nextSlice relation overlays forward
        (if forward then batch.forwardCursor else batch.backwardCursor) with
    | none =>
      have ended : (scan.resume forward batch).scanNext relation overlays natts forward =
          ((scan.resume forward batch).finish forward, none) :=
        scanNext_end going (by rw [nextSlice_resume, cursor, next])
      have stopped : ((scan.resume forward batch).finish forward).exhausted forward = true := by
        cases forward <;> rfl
      refine ⟨[], ?_, ?_⟩
      · rw [batchLoop]
        simp only [next]
        cases forward <;> simp
      · rw [replicate_succ, scanSingly, ended]
        dsimp only
        rw [scanSingly_exhausted stopped, batchLoop]
        simp only [next]
        cases forward <;> simp [resume, close, finish]
    | some visible =>
      obtain ⟨row, copied, stepped⟩ := @scanNext_found relation overlays natts
        (scan.resume forward batch) forward written visible going
        (by rw [nextSlice_resume, cursor, next])
      obtain ⟨rows, taken, singles⟩ := ih { batch with
        forwardCursor := .after visible.cursorTid
        backwardCursor := .before visible.cursorTid
        rows := batch.rows ++ [row] } open_
      have loop : scan.batchLoop relation overlays natts forward (wanted + 1) batch =
          scan.batchLoop relation overlays natts forward wanted { batch with
            forwardCursor := .after visible.cursorTid
            backwardCursor := .before visible.cursorTid
            rows := batch.rows ++ [row] } := by
        rw [batchLoop]
        simp only [next, copied]
      refine ⟨row :: rows, ?_, ?_⟩
      · rw [loop, taken, append_assoc]
        rfl
      · rw [replicate_succ, scanSingly, stepped, loop]
        dsimp only
        rw [resume_moveTo batch visible.cursorTid row, singles]
        rfl

theorem scanNextBatch_singly (written : Local.Written ⟨relation, overlays⟩) (size : Nat) :
    scan.scanSingly relation overlays natts (replicate size forward) =
      ((scan.scanNextBatch relation overlays natts forward size).1,
        (scan.scanNextBatch relation overlays natts forward size).2.map (scan.reported relation)) := by
  cases running : scan.exhausted forward with
  | true =>
    rw [scanSingly_exhausted running]
    simp [scanNextBatch, running]
  | false =>
    obtain ⟨rows, taken, singles⟩ := @batchLoop_singly relation overlays natts scan forward written
      running size ⟨scan.forwardCursor, scan.backwardCursor, [], false⟩ rfl
    rw [resume_start] at singles
    rw [scanNextBatch_eq size running, singles]
    dsimp only
    rw [taken]
    rfl

theorem scanNextBatch_deltas (size : Nat) :
    (scan.scanNextBatch relation overlays natts forward size).1.hasVisibilityDeltas =
      scan.hasVisibilityDeltas := by
  cases running : scan.exhausted forward with
  | true => simp [scanNextBatch, running]
  | false =>
    rw [scanNextBatch_eq size running]
    dsimp only
    split <;> rfl

theorem scanSingly_append (first second : List Bool) :
    scan.scanSingly relation overlays natts (first ++ second) =
      let (middle, rows) := scan.scanSingly relation overlays natts first
      let (final, more) := middle.scanSingly relation overlays natts second
      (final, rows ++ more) := by
  induction first generalizing scan with
  | nil => simp [scanSingly]
  | cons forward rest ih => simp [scanSingly, ih]

theorem scanBatches_singly (written : Local.Written ⟨relation, overlays⟩)
    (requests : List (Bool × Nat)) :
    scan.scanSingly relation overlays natts
        (requests.flatMap fun request => replicate request.2 request.1) =
      ((scan.scanBatches relation overlays natts requests).1,
        (scan.scanBatches relation overlays natts requests).2.map (scan.reported relation)) := by
  induction requests generalizing scan with
  | nil => rfl
  | cons request rest ih =>
    obtain ⟨forward, size⟩ := request
    have same : (scan.scanNextBatch relation overlays natts forward size).1.reported relation =
        scan.reported relation := by
      funext row
      rw [reported, scanNextBatch_deltas, reported]
    rw [flatMap_cons, scanSingly_append, scanNextBatch_singly written]
    dsimp only
    rw [ih, same]
    simp [scanBatches]

theorem reported_output (row : ScannedRow) : (scan.reported relation row).output = row.output := by
  unfold reported
  split <;> rfl

/-! ## Where single steps report another place -/

theorem nextSlice_committed (plain : scan.hasVisibilityDeltas = false) {cursor : ScanCursor}
    (seen : scan.nextSlice relation overlays forward cursor = some found) :
    ∃ tid ∈ relation.liveTids.elems, relation.committedTuple scan.highWater tid = some found := by
  simp only [nextSlice, plain, Bool.not_false, if_true, nextCommittedTupleSlice]
    at seen
  split at seen
  · obtain ⟨start, -, seen⟩ := bind_eq_some_iff.mp seen
    obtain ⟨tid, first, seen⟩ := bind_eq_some_iff.mp seen
    exact ⟨tid, mem_of_find?_eq_some first, seen⟩
  · obtain ⟨stop, -, seen⟩ := bind_eq_some_iff.mp seen
    obtain ⟨tid, last, seen⟩ := bind_eq_some_iff.mp seen
    exact ⟨tid, mem_reverse.mp (mem_of_find?_eq_some last), seen⟩

/-- A row that a scan without own changes returned: a live tid within the high
    water, at its own place. -/
def Committed (relation : RelationStorage) (highWater : HighWaterOffsets) (row : ScannedRow) : Prop :=
  row.cursorTid = row.tid ∧ row.tid ∈ relation.liveTids ∧ tidBeyondHighWater row.tid highWater = false

theorem committedTuple_copy {tid : Tid} {row : ScannedRow} (live : tid ∈ relation.liveTids.elems)
    (seen : relation.committedTuple scan.highWater tid = some found)
    (copied : found.copy found.cursorTid natts = some row) :
    Committed relation scan.highWater row := by
  rw [committedTuple, ite_none_left_eq_some] at seen
  obtain ⟨within, seen⟩ := seen
  obtain ⟨tuple, -, rfl⟩ := map_eq_some_iff.mp seen
  obtain ⟨values, -, rfl⟩ := map_eq_some_iff.mp copied
  exact ⟨rfl, live, Bool.eq_false_iff.mpr within⟩

theorem batchLoop_committed (plain : scan.hasVisibilityDeltas = false) (wanted : Nat) (batch : Batch)
    (sofar : ∀ row ∈ batch.rows, Committed relation scan.highWater row) :
    ∀ row ∈ (scan.batchLoop relation overlays natts forward wanted batch).rows,
      Committed relation scan.highWater row := by
  induction wanted generalizing batch with
  | zero => exact sofar
  | succ wanted ih =>
    unfold batchLoop
    dsimp only
    split
    · split <;> exact sofar
    · rename_i visible seen
      obtain ⟨tid, live, here⟩ := nextSlice_committed plain seen
      split
      · exact sofar
      · rename_i row copied
        apply ih
        intro other mem
        rcases mem_append.mp mem with old | new
        · exact sofar other old
        · rw [mem_singleton.mp new]
          exact committedTuple_copy live here copied

theorem scanNextBatch_kept (size : Nat) :
    (scan.scanNextBatch relation overlays natts forward size).1.highWater = scan.highWater := by
  cases running : scan.exhausted forward with
  | true => simp [scanNextBatch, running]
  | false =>
    rw [scanNextBatch_eq size running]
    dsimp only
    split <;> rfl

theorem scanBatches_committed (plain : scan.hasVisibilityDeltas = false)
    (requests : List (Bool × Nat)) :
    ∀ row ∈ (scan.scanBatches relation overlays natts requests).2,
      Committed relation scan.highWater row := by
  induction requests generalizing scan with
  | nil => nofun
  | cons request rest ih =>
    obtain ⟨forward, size⟩ := request
    intro row mem
    simp only [scanBatches, mem_append] at mem
    rcases mem with first | later
    · cases running : scan.exhausted forward with
      | true => simp [scanNextBatch, running] at first
      | false =>
        rw [scanNextBatch_eq size running] at first
        exact batchLoop_committed plain size _ (by simp) row first
    · have next := ih (scanNextBatch_deltas size |>.trans plain) row later
      rwa [scanNextBatch_kept] at next

/-- Every live row within the high water that is recorded as the target of HOT
    updates is its own root. -/
def OwnRoots (relation : RelationStorage) (highWater : HighWaterOffsets) : Prop :=
  ∀ tid ∈ relation.liveTids.elems, tidBeyondHighWater tid highWater = false →
    (relation.hotRedirectRootForTarget tid).getD tid = tid

theorem scanBatches_reported
    (roots : scan.hasVisibilityDeltas = true ∨ OwnRoots relation scan.highWater)
    (requests : List (Bool × Nat)) :
    (scan.scanBatches relation overlays natts requests).2.map (scan.reported relation) =
      (scan.scanBatches relation overlays natts requests).2 := by
  rw [List.map_congr_left (fun row mem => ?_), List.map_id']
  cases deltas : scan.hasVisibilityDeltas with
  | true => simp [reported, deltas]
  | false =>
    obtain ⟨place, live, within⟩ := scanBatches_committed deltas requests row mem
    have root : (relation.hotRedirectRootForTarget row.tid).getD row.tid = row.tid := by
      rcases roots with own | roots
      · simp [deltas] at own
      · exact roots row.tid live within
    obtain ⟨tid, cursorTid, stored, values⟩ := row
    cases place
    simp [reported, deltas, root]

theorem scanSingly_eq_scanBatches (written : Local.Written ⟨relation, overlays⟩)
    (roots : scan.hasVisibilityDeltas = true ∨ OwnRoots relation scan.highWater)
    (requests : List (Bool × Nat)) :
    scan.scanSingly relation overlays natts
        (requests.flatMap fun request => replicate request.2 request.1) =
      scan.scanBatches relation overlays natts requests := by
  rw [scanBatches_singly written, scanBatches_reported roots]

/-- A scan that stands before a live row finds it. -/
theorem nextSlice_live (sound : relation.Sound) (plain : scan.hasVisibilityDeltas = false) {tid : Tid}
    (live : tid ∈ relation.liveTids) (within : tidBeyondHighWater tid scan.highWater = false) :
    ∃ tuple, scan.nextSlice relation overlays true ⟨tid.block, tid.offset⟩ =
      some ⟨tid, tid, tuple⟩ := by
  obtain ⟨tuple, row⟩ := (sound.live tid).mp live
  have stored : relation.tupleSlice tid false = some tuple := by
    simp [RelationStorage.tupleSlice_eq, row, Page.readable]
  have numbered : tid.offset ≠ 0 := by
    intro zero
    simp [RelationStorage.row, Page.row, Page.line, zero] at row
  have filed : tid.block < scan.highWater.length := by
    by_contra outside
    simp [tidBeyondHighWater, getElem?_eq_none (Nat.le_of_not_lt outside)] at within
  have start : scanForwardStartTid ⟨tid.block, tid.offset⟩ scan.highWater = some tid := by
    simp [scanForwardStartTid, ScanCursor.tid, numbered, filed]
  have first : relation.liveTids.elems.find? (fun other => decide (tid ≤ other)) = some tid :=
    OrdSet.find?_le live
  refine ⟨tuple, ?_⟩
  simp [nextSlice, plain, nextCommittedTupleSlice, start, first,
    committedTuple, within, stored]

/-- A single step from a live row that is not its own root reports the root, a
    batch reports the row. -/
theorem single_reports_root (written : Local.Written ⟨relation, overlays⟩) (sound : relation.Sound)
    (plain : scan.hasVisibilityDeltas = false) {tid : Tid} (live : tid ∈ relation.liveTids)
    (within : tidBeyondHighWater tid scan.highWater = false)
    (running : scan.exhausted true = false) (here : scan.forwardCursor = ⟨tid.block, tid.offset⟩)
    (same : scan.scanSingly relation overlays natts [true] =
      scan.scanBatches relation overlays natts [(true, 1)]) :
    (relation.hotRedirectRootForTarget tid).getD tid = tid := by
  obtain ⟨tuple, found⟩ := @nextSlice_live relation overlays scan sound plain tid live within
  rw [← here] at found
  obtain ⟨row, copied, stepped⟩ := @scanNext_found relation overlays natts scan true written _
    running found
  obtain ⟨values, -, rfl⟩ := map_eq_some_iff.mp copied
  have batched : (scan.scanBatches relation overlays natts [(true, 1)]).2 =
      [⟨tid, tid, values.1, values.2⟩] := by
    have taken : (scan.scanNextBatch relation overlays natts true 1).2 =
        [⟨tid, tid, values.1, values.2⟩] := by
      rw [scanNextBatch_eq 1 running]
      simp [batchLoop, found, copied]
    simp [scanBatches, taken]
  have rows := congrArg Prod.snd same
  rw [batched] at rows
  simpa [scanSingly, stepped, reported, plain] using rows

end ScanState

namespace Engine

/-- A committed row after a HOT update that is committed too. -/
def updatedRow : List Request := openUpdate ++ [⟨1, .call .xactCommit⟩]

end Engine

end FastPg.Storage
