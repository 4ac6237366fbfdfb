import FastPg.Storage.Batch

/-! # Scans of own rows

Where a relation has no pages, a scan can look at the rows of its session only.
It finds what the general scan finds, as long as no redirects are recorded for
the relation and the rows of a single level are in ascending order: the search
of that level is a binary search.
-/

namespace FastPg.Storage

open Assoc Redirect Bisect Transition Option RelationStorage Overlays OrdSet
open List hiding insert lookup

/-! ## The first row in a direction -/

section Order

/-- A tid that a forward scan from `start` may return. -/
def reaches (start : Tid) (highWater : HighWaterOffsets) (tid : Tid) : Bool :=
  start ≤ tid && !tidBeyondHighWater tid highWater

/-- A tid that a backward scan from `stop` may return. -/
def recedes (stop : Tid) (highWater : HighWaterOffsets) (tid : Tid) : Bool :=
  tid ≤ stop && !tidBeyondHighWater tid highWater

/-- The places in the direction of the scan. -/
def inDirection (forward : Bool) {α : Type*} (places : List α) : List α :=
  if forward then places else places.reverse

/-- One tid comes before another in the direction of the scan. -/
def Precedes (forward : Bool) (tid other : Tid) : Prop := if forward then tid < other else other < tid

/-- The first tid with a property, in the direction of the scan. -/
def First (forward : Bool) (good : Tid → Prop) : Option Tid → Prop
  | none => ∀ tid, ¬ good tid
  | some tid => good tid ∧ ∀ other, good other → ¬ Precedes forward other tid

/-- The first of two candidates. -/
def firstOf (forward : Bool) (a b : Tid) : Tid := if forward then min a b else max a b

def firstOfBoth (forward : Bool) : Option Tid → Option Tid → Option Tid
  | some a, some b => some (firstOf forward a b)
  | some a, none => some a
  | none, b => b

/-- Where a walk in a direction starts, what it may return from there, and which
    one it keeps. -/
def startTid (forward : Bool) (cursor : ScanCursor) (highWater : HighWaterOffsets) : Option Tid :=
  if forward then scanForwardStartTid cursor highWater else scanBackwardEndTid cursor highWater

def accepts (forward : Bool) (start : Tid) (highWater : HighWaterOffsets) : Tid → Bool :=
  if forward then reaches start highWater else recedes start highWater

def pick (forward : Bool) (start : Tid) (highWater : HighWaterOffsets) :
    Option Tid → Tid → Option Tid :=
  if forward then earliest start highWater else latest start highWater

variable {forward : Bool} {start tid other : Tid} {highWater : HighWaterOffsets} {tids : List Tid}
  {good good' : Tid → Prop} {a b : Option Tid}

theorem mem_inDirection {α : Type*} {places : List α} {place : α} :
    place ∈ inDirection forward places ↔ place ∈ places := by
  cases forward <;> simp [inDirection]

theorem pick_eq (candidate : Option Tid) (tid : Tid) :
    pick forward start highWater candidate tid =
      if accepts forward start highWater tid then
        some (candidate.elim tid fun current => firstOf forward current tid)
      else candidate := by
  cases forward with
  | true =>
    by_cases before : tid < start <;> cases beyond : tidBeyondHighWater tid highWater <;>
      simp [pick, accepts, earliest, reaches, firstOf, before, beyond, not_lt.mp, not_le.mpr]
  | false =>
    by_cases after : start < tid <;> cases beyond : tidBeyondHighWater tid highWater <;>
      simp [pick, accepts, latest, recedes, firstOf, after, beyond, not_lt.mp, not_le.mpr]

theorem accepts_within (accepted : accepts forward start highWater tid = true) :
    tidBeyondHighWater tid highWater = false := by
  cases forward <;> simp_all [accepts, reaches, recedes]

namespace First

theorem unique (first : First forward good a) (second : First forward good b) : a = b := by
  cases a with
  | none =>
    cases b with
    | none => rfl
    | some tid => exact absurd second.1 (first tid)
  | some tid =>
    cases b with
    | none => exact absurd first.1 (second tid)
    | some other =>
      have forth := first.2 other second.1
      have back := second.2 tid first.1
      have equal : tid = other := by
        cases forward with
        | true => exact le_antisymm (not_lt.mp forth) (not_lt.mp back)
        | false => exact le_antisymm (not_lt.mp back) (not_lt.mp forth)
      rw [equal]

theorem congr (first : First forward good a) (same : ∀ tid, good tid ↔ good' tid) :
    First forward good' a := by
  have equal : good = good' := funext fun tid => propext (same tid)
  exact equal ▸ first

theorem single (forward : Bool) (tid : Tid) : First forward (· = tid) (some tid) := by
  refine ⟨rfl, fun other same => ?_⟩
  subst same
  cases forward <;> exact lt_irrefl _

theorem nothing (accepts : Tid → Bool) :
    First forward (fun tid => tid ∈ ([] : List Tid) ∧ accepts tid = true) none := by simp [First]

theorem both (first : First forward good a) (second : First forward good' b) :
    First forward (fun tid => good tid ∨ good' tid) (firstOfBoth forward a b) := by
  cases a with
  | none => exact second.congr fun tid => (or_iff_right (first tid)).symm
  | some a =>
    cases b with
    | none => exact first.congr fun tid => (or_iff_left (second tid)).symm
    | some b =>
      have either : firstOf forward a b = a ∨ firstOf forward a b = b := by
        cases forward with
        | true => exact min_choice a b
        | false => exact max_choice a b
      have before (other : Tid) : ¬ Precedes forward other (firstOf forward a b) ↔
          ¬ Precedes forward other a ∨ ¬ Precedes forward other b := by
        cases forward <;> simp [Precedes, firstOf, ← not_le, imp_iff_not_or]
      refine ⟨?_, fun other good => (before other).mpr (good.imp (first.2 other) (second.2 other))⟩
      rcases either with same | same <;> rw [same]
      · exact .inl first.1
      · exact .inr second.1

/-- A walk keeps the first of what it has seen. -/
theorem foldl (first : First forward good a) (tids : List Tid) :
    First forward (fun tid => good tid ∨ tid ∈ tids ∧ accepts forward start highWater tid = true)
      (tids.foldl (pick forward start highWater) a) := by
  induction tids generalizing a good with
  | nil => exact first.congr fun tid => by simp
  | cons tid rest ih =>
    rw [foldl_cons, pick_eq]
    split
    · rename_i accepted
      have kept : First forward (fun other => good other ∨ other = tid)
          (some (a.elim tid fun current => firstOf forward current tid)) := by
        have both := first.both (.single forward tid)
        cases a <;> exact both
      refine (ih kept).congr fun other => ?_
      by_cases same : other = tid <;> simp [same, accepted]
    · rename_i refused
      refine (ih first).congr fun other => ?_
      by_cases same : other = tid <;> simp [same, refused]

theorem find? (sorted : tids.Pairwise (· ≤ ·)) (accepts : Tid → Bool) :
    First forward (fun tid => tid ∈ tids ∧ accepts tid = true)
      ((inDirection forward tids).find? accepts) := by
  have order : (inDirection forward tids).Pairwise fun tid other => ¬ Precedes forward other tid := by
    cases forward with
    | true => exact sorted.imp not_lt.mpr
    | false => exact pairwise_reverse.mpr (sorted.imp not_lt.mpr)
  cases found : (inDirection forward tids).find? accepts with
  | none =>
    rintro tid ⟨mem, good⟩
    exact find?_eq_none.mp found tid (mem_inDirection.mpr mem) good
  | some tid =>
    obtain ⟨good, before, after, split, refused⟩ := find?_eq_some_iff_append.mp found
    refine ⟨⟨mem_inDirection.mp (mem_of_find?_eq_some found), good⟩, fun other both => ?_⟩
    have mem : other ∈ inDirection forward tids := mem_inDirection.mpr both.1
    rw [split, mem_append, mem_cons] at mem
    rw [split, pairwise_append, pairwise_cons] at order
    rcases mem with early | rfl | late
    · exact absurd both.2 (by simpa using refused other early)
    · cases forward <;> exact lt_irrefl _
    · exact order.2.1.1 other late

end First

theorem foldl_pick (sorted : tids.Pairwise (· ≤ ·)) :
    tids.foldl (pick forward start highWater) none =
      (inDirection forward tids).find? (accepts forward start highWater) :=
  (((First.nothing fun _ => false).foldl tids).congr fun tid => by simp).unique (.find? sorted _)

end Order

/-! ## One level in order -/

theorem nextSingle_or_any {overlay : RelationOverlay} (sorted : overlay.insertedTids.Pairwise (· ≤ ·))
    (highWater : HighWaterOffsets) (forward : Bool) (cursor : ScanCursor) :
    (nextSingleOverlayCandidateTid overlay highWater forward cursor).or
        (nextAnyCandidateTid [overlay] highWater forward cursor) =
      nextAnyCandidateTid [overlay] highWater forward cursor := by
  have all : allInserted [overlay] = overlay.insertedTids := by simp [allInserted]
  unfold nextSingleOverlayCandidateTid nextAnyCandidateTid
  rw [all]
  split
  · rw [none_or]
  · cases forward with
    | true =>
      cases scanForwardStartTid cursor highWater with
      | none => rfl
      | some start =>
        have same := find?_fromIndex sorted start fun tid => !tidBeyondHighWater tid highWater
        have walk : overlay.insertedTids.foldl (earliest start highWater) none = _ :=
          @foldl_pick true _ _ _ sorted
        simp only [if_true, bind_some]
        rw [same, walk]
        exact or_self
    | false =>
      cases scanBackwardEndTid cursor highWater with
      | none => rfl
      | some stop =>
        have same := find?_toIndex sorted stop fun tid => !tidBeyondHighWater tid highWater
        have walk : overlay.insertedTids.foldl (latest stop highWater) none = _ :=
          @foldl_pick false _ _ _ sorted
        simp only [Bool.false_eq_true, if_false, bind_some]
        rw [same, walk]
        exact or_self

/-! ## Relations without pages -/

/-- No redirect is recorded for the relation. -/
structure RelationStorage.Unredirected (relation : RelationStorage) : Prop where
  hot : relation.hotRedirects = []
  roots : relation.hotRedirectRoots = .empty
  targets : relation.hotRedirectTargets = []
  updates : relation.updateRedirects = []

/-- The rows of a session with one level are in ascending order. -/
def Overlays.Ascending (overlays : Overlays) : Prop :=
  ∀ overlay, overlays = [overlay] → overlay.insertedTids.Pairwise (· ≤ ·)

namespace RelationStorage

variable {relation : RelationStorage} {overlays : Overlays} {highWater : HighWaterOffsets}
  {forward : Bool} {curcid : Option Nat}

theorem tupleSlice_of_pageless (pageless : ∀ block, ¬ relation.physical block) (tid : Tid)
    (includePending : Bool) : relation.tupleSlice tid includePending = none := by
  have absent : relation.page tid.block = none := by
    simpa [physical] using pageless tid.block
  simp [tupleSlice, absent]

theorem liveTids_of_pageless (sound : relation.Sound) (pageless : ∀ block, ¬ relation.physical block) :
    relation.liveTids.elems = [] := by
  refine eq_nil_iff_forall_not_mem.mpr fun tid live => ?_
  obtain ⟨bytes, row⟩ := (sound.live tid).mp live
  exact pageless tid.block (physical_of_row row)

theorem sliceFor_eq (relation : RelationStorage) (overlays : Overlays) (curcid : Option Nat)
    (tid : Tid) : relation.sliceFor overlays curcid tid = relation.stackTupleSlice overlays tid curcid := by
  cases curcid with
  | none => exact physicalVisibleTupleSlice_stack relation overlays tid
  | some curcid => exact physicalVisibleTupleSliceAtCid_stack relation overlays tid curcid

/-- Own rows are read by the rules for any stack. -/
theorem visibleSlice_eq (written : ∀ overlay ∈ overlays, overlay.Written) (tid : Tid) :
    overlays.visibleSlice curcid tid = (overlays.tidVisibility tid curcid).bind fun includePending =>
      if includePending then overlays.pendingTupleSlice tid else none := by
  have own (hidden : overlays.ownInsertedTid tid = false) : overlays.pendingTupleSlice tid = none := by
    cases found : overlays.pendingTupleSlice tid with
    | none => rfl
    | some tuple =>
      rw [(own_of_pendingTupleSlice written found).2] at hidden
      cases hidden
  unfold visibleSlice
  split
  · rename_i overlay
    rw [tidVisibility_singleton, pendingTupleSlice_singleton]
    cases singleOverlayTidVisibility overlay tid curcid with
    | none => rfl
    | some pending => cases pending <;> rfl
  · cases curcid with
    | none =>
      simp only [tidVisibility]
      cases inserted : overlays.ownInsertedTid tid <;> cases overlays.invalidateTid tid <;>
        cases overlays.clearTid tid <;> simp [own, inserted]
    | some curcid =>
      simp only [tidVisibility]
      by_cases inserted : overlays.ownInsertedTid tid = true <;>
        by_cases before : overlays.ownInsertedTidBefore tid curcid = true <;>
        by_cases struck : overlays.invalidateTidBefore tid curcid = true <;>
        by_cases gone : overlays.clearTid tid = true <;>
        simp [own, inserted, before, struck, gone]

/-- Without pages only own rows are read. -/
theorem sliceFor_of_pageless (pageless : ∀ block, ¬ relation.physical block)
    (written : ∀ overlay ∈ overlays, overlay.Written) (tid : Tid) :
    relation.sliceFor overlays curcid tid = overlays.visibleSlice curcid tid := by
  rw [sliceFor_eq, visibleSlice_eq written, stackTupleSlice]
  congr 1
  funext includePending
  rw [tupleSlice_of_pageless pageless]
  split <;> simp_all

theorem nextCandidateTid_of_pageless (sound : relation.Sound)
    (pageless : ∀ block, ¬ relation.physical block) (plain : relation.Unredirected)
    (ascending : overlays.Ascending) :
    relation.nextCandidateTid overlays highWater forward =
      overlays.nextCandidateTid highWater forward := by
  funext cursor
  have general : relation.nextCandidateTid overlays highWater forward cursor =
      overlays.nextAnyCandidateTid highWater forward cursor := by
    cases forward <;>
      simp [nextCandidateTid, nextForwardCandidateTid, nextBackwardCandidateTid,
        liveTids_of_pageless sound pageless, plain.roots, empty, nextAnyCandidateTid]
  rw [general]
  unfold Overlays.nextCandidateTid
  split
  · rename_i overlay
    exact (nextSingle_or_any (ascending overlay rfl) highWater forward cursor).symm
  · rfl

theorem visibleCandidate_of_pageless (pageless : ∀ block, ¬ relation.physical block)
    (plain : relation.Unredirected) (written : ∀ overlay ∈ overlays, overlay.Written) :
    relation.visibleCandidate overlays highWater curcid =
      overlays.visibleCandidate highWater curcid := by
  funext tid
  have slice (tid : Tid) : relation.sliceFor overlays curcid tid = overlays.visibleSlice curcid tid :=
    sliceFor_of_pageless pageless written tid
  have hotNext : relation.hotNext overlays = overlays.tidRedirect := by
    funext tid
    simp [RelationStorage.hotNext, orElse, plain.hot]
  have updateNext : relation.updateNext overlays = overlays.updateRedirect := by
    funext tid
    simp [RelationStorage.updateNext, orElse, plain.updates]
  have hot : relation.hotVersion overlays curcid tid =
      if overlays.resolveTid tid = tid then none
      else (overlays.visibleSlice curcid (overlays.resolveTid tid)).map fun tuple =>
        ⟨tid, overlays.resolveTid tid, tuple⟩ := by
    simp only [hotVersion, resolveTidRedirect, hotNext, slice, isHotRedirectRoot, plain.roots,
      OrdSet.not_mem_empty, decide_false, Bool.or_false, Overlays.resolveTid]
    cases next : overlays.tidRedirect tid with
    | none => simp [(Ends.stop next).follow_eq]
    | some target => rfl
  have beyond : relation.updateRedirectBeyondHighWater overlays highWater curcid tid =
      overlays.updateRedirectBeyondHighWater highWater curcid tid := by
    simp only [updateRedirectBeyondHighWater, Overlays.updateRedirectBeyondHighWater,
      resolveUpdateRedirect, updateNext, slice, Overlays.resolveUpdate]
    cases overlays.updateRedirect tid <;> rfl
  simp [visibleCandidate, Overlays.visibleCandidate, isHotRedirectTarget, plain.targets, hot, beyond,
    slice]

/-- A scan of own rows finds what the general scan finds, at every place. -/
theorem nextTupleSlice_of_pageless (sound : relation.Sound)
    (pageless : ∀ block, ¬ relation.physical block) (plain : relation.Unredirected)
    (written : ∀ overlay ∈ overlays, overlay.Written) (ascending : overlays.Ascending)
    (cursor : ScanCursor) :
    overlays.nextTupleSlice highWater forward curcid cursor =
      relation.nextVisibleTupleSlice overlays highWater forward curcid cursor := by
  have fuel : relation.scanFuel overlays = overlays.allInserted.length + 1 := by
    simp [scanFuel, liveTids_of_pageless sound pageless, plain.roots, empty]
  unfold nextTupleSlice nextVisibleTupleSlice
  rw [fuel, nextCandidateTid_of_pageless sound pageless plain ascending,
    visibleCandidate_of_pageless pageless plain written]

end RelationStorage

/-! ## Whole scans -/

namespace ScanState

variable {relation : RelationStorage} {overlays : Overlays} {natts : Nat}

/-- The scan, made to look at own rows only or not. -/
def looking (scan : ScanState) (overlayOnly : Bool) : ScanState := { scan with overlayOnly }

theorem scanNext_overlayOnly (scan : ScanState) (forward : Bool) :
    (scan.scanNext relation overlays natts forward).1.overlayOnly = scan.overlayOnly := by
  unfold scanNext
  split
  · rfl
  · split
    · cases forward <;> rfl
    · split
      · rfl
      · split <;> rfl

/-- A step that finds the same row wherever it stands returns the same one. -/
theorem scanNext_looking (same : ∀ highWater forward curcid cursor,
      overlays.nextTupleSlice highWater forward curcid cursor =
        relation.nextVisibleTupleSlice overlays highWater forward curcid cursor)
    (scan : ScanState) (general : scan.overlayOnly = false) (forward : Bool) :
    (scan.looking true).scanNext relation overlays natts forward =
      ((scan.scanNext relation overlays natts forward).1.looking true,
        (scan.scanNext relation overlays natts forward).2) := by
  have next : (scan.looking true).nextSlice relation overlays forward =
      scan.nextSlice relation overlays forward := by
    funext cursor
    simp [nextSlice, looking, general, same]
  have flags : (scan.looking true).exhausted forward = scan.exhausted forward ∧
      (scan.looking true).cursor forward = scan.cursor forward ∧
      (scan.looking true).hasVisibilityDeltas = scan.hasVisibilityDeltas := ⟨rfl, rfl, rfl⟩
  unfold scanNext
  rw [next, flags.1, flags.2.1, flags.2.2]
  cases scan.exhausted forward with
  | true => rfl
  | false =>
    cases scan.nextSlice relation overlays forward (scan.cursor forward) with
    | none => cases forward <;> rfl
    | some visible =>
      cases scan.hasVisibilityDeltas with
      | false => rfl
      | true => cases copied : visible.copy visible.cursorTid natts <;> simp [copied, looking, moveTo]

theorem scanSingly_looking (same : ∀ highWater forward curcid cursor,
      overlays.nextTupleSlice highWater forward curcid cursor =
        relation.nextVisibleTupleSlice overlays highWater forward curcid cursor)
    (scan : ScanState) (general : scan.overlayOnly = false) (directions : List Bool) :
    (scan.looking true).scanSingly relation overlays natts directions =
      ((scan.scanSingly relation overlays natts directions).1.looking true,
        (scan.scanSingly relation overlays natts directions).2) := by
  induction directions generalizing scan with
  | nil => rfl
  | cons forward rest ih =>
    have kept : (scan.scanNext relation overlays natts forward).1.overlayOnly = false :=
      (scanNext_overlayOnly scan forward).trans general
    simp only [scanSingly, scanNext_looking same scan general, ih _ kept]

end ScanState

namespace Engine

/-- Where the relation has no pages and no redirects, and a single level has its
    rows in ascending order, a scan of own rows returns what the general scan
    returns: at every place, in both directions, with and without a snapshot. -/
theorem own_scan_agrees {catalog : Catalog} {engine : Engine}
    (reached : Reaches (Engine.step catalog) Respects .initial engine) (relid : Relid)
    (sid : SessionId) (pageless : ∀ block, ¬ (engine.storage.relations relid).physical block)
    (plain : (engine.storage.relations relid).Unredirected)
    (ascending : (engine.storage.overlays sid relid).Ascending) :
    let relation := engine.storage.relations relid
    let overlays := engine.storage.overlays sid relid
    (∀ highWater forward curcid cursor,
      overlays.nextTupleSlice highWater forward curcid cursor =
        relation.nextVisibleTupleSlice overlays highWater forward curcid cursor) ∧
    ∀ (scan : ScanState) (natts : Nat) (directions : List Bool),
      let own := (scan.looking true).scanSingly relation overlays natts directions
      let general := (scan.looking false).scanSingly relation overlays natts directions
      own.1 = general.1.looking true ∧ own.2 = general.2 := by
  intro relation overlays
  have written : Local.Written ⟨relation, overlays⟩ := reaches_written reached relid sid
  have sound : relation.Sound := ((reaches_kept reached).shared relid).levels sid |>.sound
  have same : ∀ highWater forward curcid cursor,
      overlays.nextTupleSlice highWater forward curcid cursor =
        relation.nextVisibleTupleSlice overlays highWater forward curcid cursor :=
    fun _ _ _ => nextTupleSlice_of_pageless sound pageless plain written.levels
      ascending
  refine ⟨same, fun scan natts directions => ?_⟩
  have agree : (scan.looking true).scanSingly relation overlays natts directions = _ :=
    ScanState.scanSingly_looking same (scan.looking false) rfl directions
  exact Prod.ext_iff.mp agree

/-- Rows of nulls: two that take more than half of a page each, then two that
    fit behind them, the first one into the second page. -/
def mixedSizes : List Request :=
  let row (natts : Nat) : Action :=
    .call (.insert 7 (List.replicate natts ⟨true, false, 0, [], 0⟩) .skip none false)
  [⟨1, .call .xactBegin⟩, ⟨1, row 200⟩, ⟨1, row 200⟩, ⟨1, row 100⟩, ⟨1, row 100⟩]

theorem own_scan_agrees_mixedSizes : ∃ engine,
    run (Engine.step uniqueCatalog) .initial (mixedSizes.take 4) = some engine ∧
      let relation := engine.storage.relations 7
      let overlays := engine.storage.overlays 1 7
      let scan := ScanState.scanBegin relation overlays (engine.rowCounts 7) none
      ((scan.looking true).scanSingly relation overlays 0 [true, true, true, false]).2 =
        ((scan.looking false).scanSingly relation overlays 0 [true, true, true, false]).2 := by
  obtain ⟨engine, ran⟩ : ∃ engine,
      run (Engine.step uniqueCatalog) .initial (mixedSizes.take 4) = some engine := ⟨_, rfl⟩
  have reached := reaches_of_checked [1] (by decide +kernel) ran
  have bare : (engine.storage.relations 7).pages = [] ∧
      (engine.storage.relations 7).hotRedirects = [] ∧
      (engine.storage.relations 7).hotRedirectRoots.elems = [] ∧
      (engine.storage.relations 7).hotRedirectTargets = [] ∧
      (engine.storage.relations 7).updateRedirects = [] := by
    cases ran
    decide +kernel
  have rows : (engine.storage.overlays 1 7).map RelationOverlay.insertedTids =
      [[⟨0, 1⟩, ⟨1, 1⟩, ⟨1, 2⟩]] := by
    cases ran
    decide +kernel
  obtain ⟨unfiled, hot, roots, targets, updates⟩ := bare
  refine ⟨engine, ran, ((own_scan_agrees reached 7 1 (fun block => ?_)
    ⟨hot, ext fun tid => ?_, targets, updates⟩ fun overlay only => ?_).2 _ 0 _).2⟩
  · simp [physical, page, unfiled]
  · simp [OrdSet.mem_def, roots, OrdSet.empty]
  · rw [only, List.map_singleton, List.singleton_inj] at rows
    rw [rows]
    decide

/-- The last row goes back to the first page, and the scan of own rows misses it. -/
theorem own_scan_misses_row : ∃ engine,
    Reaches (Engine.step uniqueCatalog) Respects .initial engine ∧
      run (Engine.step uniqueCatalog) .initial mixedSizes = some engine ∧
      (engine.storage.relations 7).pages = [] ∧
      let relation := engine.storage.relations 7
      let overlays := engine.storage.overlays 1 7
      let scan := ScanState.scanBegin relation overlays (engine.rowCounts 7) none
      let places := List.replicate 4 true
      scan.overlayOnly = true ∧
        ((scan.looking true).scanSingly relation overlays 0 places).2.map ScannedRow.tid =
          [⟨0, 1⟩, ⟨1, 1⟩, ⟨1, 2⟩] ∧
        ((scan.looking false).scanSingly relation overlays 0 places).2.map ScannedRow.tid =
          [⟨0, 1⟩, ⟨0, 2⟩, ⟨1, 1⟩, ⟨1, 2⟩] := by
  obtain ⟨engine, ran⟩ : ∃ engine,
      run (Engine.step uniqueCatalog) .initial mixedSizes = some engine := ⟨_, rfl⟩
  have reached := reaches_of_checked [1] (by decide +kernel) ran
  refine ⟨engine, reached, ran, ?_⟩
  cases ran
  decide +kernel

end Engine

end FastPg.Storage
