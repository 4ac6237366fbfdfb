import FastPg.Storage.Overlay

/-! # Redirects and visibility

What a session sees of a relation through its overlays: following HOT and
update redirects, reading a tid, and listing the visible tids. The compressing
lookups also rewrite the committed redirect maps on their way.
-/

namespace FastPg.Storage

open Assoc Redirect RelationOverlay Overlays Option

def maxHotRedirectHops : Nat := 1000000

/-- `single_overlay_tid_visibility`: `none` where the tid is hidden, else
    whether pending rows count. -/
def singleOverlayTidVisibility (overlay : RelationOverlay) (tid : Tid) (curcid : Option Nat) :
    Option Bool :=
  let inserted := decide (tid ∈ overlay.insertedTids)
  let invalidated := decide (tid ∈ overlay.invalidatedTids)
  match curcid with
  | none =>
    if !overlay.cleared then
      if invalidated then none else some inserted
    else
      let shadows := match overlay.insertedCid tid with
        | some cid => insertShadowsInvalidation cid ((overlay.invalidatedCid tid).getD 0)
        | none => false
      if invalidated && !shadows then none
      else if !inserted then none
      else some true
  | some curcid =>
    let shadows := match (overlay.insertedCid tid).filter (· < curcid) with
      | some cid => insertShadowsInvalidation cid ((overlay.invalidatedCid tid).getD 0)
      | none => false
    let hidden := match overlay.invalidatedCid tid with
      | some cid => cid < curcid && !(overlay.cleared && shadows)
      | none => false
    let includePending := match overlay.insertedCid tid with
      | some cid => decide (cid < curcid)
      | none => false
    if hidden then none
    else if inserted && !includePending then none
    else if !includePending && overlay.cleared then none
    else some includePending

namespace RelationStorage

/-- The HOT redirect a session follows from a tid. -/
def hotNext (relation : RelationStorage) (overlays : Overlays) : Tid → Option Tid :=
  orElse (Overlays.tidRedirect overlays) (lookup relation.hotRedirects)

def updateNext (relation : RelationStorage) (overlays : Overlays) : Tid → Option Tid :=
  orElse (Overlays.updateRedirect overlays) (lookup relation.updateRedirects)

def resolveTidRedirect (relation : RelationStorage) (overlays : Overlays) (tid : Tid) : Tid :=
  follow (relation.hotNext overlays) maxHotRedirectHops tid

def resolveUpdateRedirect (relation : RelationStorage) (overlays : Overlays) (tid : Tid) : Tid :=
  follow (relation.updateNext overlays) maxHotRedirectHops tid

/-- `resolve_tid_redirect_in_overlays_compress`: resolve a tid; where only
    committed redirects were followed, point every visited tid at the end. -/
def resolveTidRedirectCompress (relation : RelationStorage) (overlays : Overlays) (tid : Tid) :
    RelationStorage × Tid :=
  let trail := walk (Overlays.tidRedirect overlays) (lookup relation.hotRedirects)
    maxHotRedirectHops false [] tid
  if !trail.usedUpper ∧ trail.final ≠ tid then
    ((trail.visited.filter (· ≠ trail.final)).foldl
      (fun relation visited => relation.insertHotRedirect visited trail.final) relation, trail.final)
  else (relation, trail.final)

def resolveUpdateRedirectCompress (relation : RelationStorage) (overlays : Overlays) (tid : Tid) :
    RelationStorage × Tid :=
  let trail := walk (Overlays.updateRedirect overlays) (lookup relation.updateRedirects)
    maxHotRedirectHops false [] tid
  if !trail.usedUpper ∧ trail.final ≠ tid then
    ({ relation with
        updateRedirects := (trail.visited.filter (· ≠ trail.final)).foldl
          (fun redirects visited => upsert redirects visited trail.final) relation.updateRedirects },
      trail.final)
  else (relation, trail.final)

/-- Read a tid at its own place once its visibility is settled. -/
def readOverlay (relation : RelationStorage) (overlay : RelationOverlay) (tid : Tid)
    (includePending : Bool) : Option Bytes :=
  match (if includePending then overlay.pendingTupleSlice tid else none) with
  | some tuple => some tuple
  | none => relation.tupleSlice tid includePending

/-- `physical_visible_tuple_slice_in_overlays`: the tuple a session sees at a
    tid, without following redirects from it. -/
def physicalVisibleTupleSlice (relation : RelationStorage) (overlays : Overlays) (tid : Tid) :
    Option Bytes :=
  match overlays with
  | [overlay] => (singleOverlayTidVisibility overlay tid none).bind (relation.readOverlay overlay tid)
  | overlays =>
    if Overlays.invalidateTid overlays tid then none
    else if Overlays.clearTid overlays tid then none
    else
      let owned := Overlays.ownInsertedTid overlays tid
      match (if owned then Overlays.pendingTupleSlice overlays tid else none) with
      | some tuple => some tuple
      | none => relation.tupleSlice tid owned

/-- The same with a command-id snapshot. -/
def physicalVisibleTupleSliceAtCid (relation : RelationStorage) (overlays : Overlays) (tid : Tid)
    (curcid : Nat) : Option Bytes :=
  match overlays with
  | [overlay] =>
    (singleOverlayTidVisibility overlay tid (some curcid)).bind (relation.readOverlay overlay tid)
  | overlays =>
    if Overlays.invalidateTidBefore overlays tid curcid then none
    else if Overlays.clearTid overlays tid then none
    else
      let owned := Overlays.ownInsertedTid overlays tid
      let includePending := Overlays.ownInsertedTidBefore overlays tid curcid
      if owned && !includePending then none
      else match (if includePending then Overlays.pendingTupleSlice overlays tid else none) with
        | some tuple => some tuple
        | none => relation.tupleSlice tid includePending

/-- `visible_tuple_slice_in_overlays`: fetch a tid through its HOT redirects. -/
def visibleTupleSlice (relation : RelationStorage) (overlays : Overlays) (tid : Tid) :
    Option Bytes :=
  relation.physicalVisibleTupleSlice overlays (relation.resolveTidRedirect overlays tid)

/-- `visible_tuple_slice_in_overlays_at_cid`: the first version of a HOT chain
    that the snapshot shows. -/
def visibleTupleSliceAtCid (relation : RelationStorage) (overlays : Overlays) (tid : Tid)
    (curcid : Nat) : Option Bytes :=
  seek (relation.hotNext overlays)
    (fun tid => relation.physicalVisibleTupleSliceAtCid overlays tid curcid) maxHotRedirectHops tid

/-- `fetch_tid_impl`: the tid is resolved, with compression, and fetched. -/
def fetchTid (relation : RelationStorage) (overlays : Overlays) (tid : Tid) :
    RelationStorage × Option Bytes :=
  let (compressed, resolved) := relation.resolveTidRedirectCompress overlays tid
  (compressed, compressed.visibleTupleSlice overlays resolved)

/-- A session without changes of a relation reads committed rows directly. -/
def physicalVisibleTupleSliceForSession (relation : RelationStorage) (overlays : Overlays)
    (tid : Tid) (hasVisibilityDeltas : Bool) : Option Bytes :=
  if hasVisibilityDeltas then relation.physicalVisibleTupleSlice overlays tid
  else relation.tupleSlice tid false

/-- `find_visible_tuple`: fetch and decode. The tid is resolved once more by the fetch. -/
def findVisibleTuple (relation : RelationStorage) (overlays : Overlays) (tid : Tid) :
    Option (List DecodedDatum) :=
  (relation.visibleTupleSlice overlays (relation.resolveTidRedirect overlays tid)).bind decodeTuple

/-- `visible_tids` in tid order. -/
def visibleTids (relation : RelationStorage) (overlays : Overlays) : List Tid :=
  (OrdSet.ofList (relation.liveTids.elems ++ overlays.reverse.flatMap RelationOverlay.insertedTids)
    ).elems.filter fun tid => (relation.physicalVisibleTupleSlice overlays tid).isSome

/-- The visible tids with their tuples. -/
def visibleRows (relation : RelationStorage) (overlays : Overlays) : List (Tid × Bytes) :=
  (relation.visibleTids overlays).filterMap fun tid =>
    (relation.physicalVisibleTupleSlice overlays tid).map fun tuple => (tid, tuple)

end RelationStorage

/-! ## One level is read like any stack -/

variable {overlay : RelationOverlay}

theorem RelationOverlay.mem_insertedTids {tid : Tid} :
    tid ∈ overlay.insertedTids ↔ (overlay.insertedCid tid).isSome = true := by
  unfold insertedCid
  split <;> simp_all

theorem RelationOverlay.mem_invalidatedTids {tid : Tid} :
    tid ∈ overlay.invalidatedTids ↔ (overlay.invalidatedCid tid).isSome = true := by
  unfold invalidatedCid
  split <;> simp_all

namespace Overlays

/-- Whether a tid is hidden, and else whether pending rows count, by the rules
    for any stack. -/
def tidVisibility (overlays : Overlays) (tid : Tid) : Option Nat → Option Bool
  | none =>
    if overlays.invalidateTid tid then none
    else if overlays.clearTid tid then none
    else some (overlays.ownInsertedTid tid)
  | some curcid =>
    if overlays.invalidateTidBefore tid curcid then none
    else if overlays.clearTid tid then none
    else if overlays.ownInsertedTid tid && !overlays.ownInsertedTidBefore tid curcid then none
    else some (overlays.ownInsertedTidBefore tid curcid)

end Overlays

/-- The tuple at a tid by the rules for any stack. -/
def RelationStorage.stackTupleSlice (relation : RelationStorage) (overlays : Overlays) (tid : Tid)
    (curcid : Option Nat) : Option Bytes :=
  (overlays.tidVisibility tid curcid).bind fun includePending =>
    match (if includePending then overlays.pendingTupleSlice tid else none) with
    | some tuple => some tuple
    | none => relation.tupleSlice tid includePending

theorem Overlays.tidVisibility_singleton (overlay : RelationOverlay) (tid : Tid)
    (curcid : Option Nat) :
    tidVisibility [overlay] tid curcid = singleOverlayTidVisibility overlay tid curcid := by
  cases curcid with
  | none =>
    simp only [tidVisibility, invalidateTid, invalidateTidFrom, clearTid, ownInsertedTid,
      singleOverlayTidVisibility, mem_insertedTids,
      mem_invalidatedTids]
    cases overlay.insertedCid tid with
    | none => cases overlay.invalidatedCid tid <;> cases overlay.cleared <;> simp [Option.filter]
    | some insertCid =>
      cases overlay.invalidatedCid tid with
      | none => cases overlay.cleared <;> simp [Option.filter]
      | some struckCid =>
        cases overlay.cleared <;>
          cases shadows : insertShadowsInvalidation insertCid struckCid <;>
          simp [Option.filter, shadows]
  | some curcid =>
    simp only [tidVisibility, invalidateTidBefore, invalidateTidFrom, clearTid, ownInsertedTid,
      ownInsertedTidBefore, insertedCid, List.findSome?_cons, List.findSome?_nil,
      singleOverlayTidVisibility, mem_insertedTids]
    cases overlay.insertedCid tid with
    | none =>
      cases overlay.invalidatedCid tid with
      | none => cases overlay.cleared <;> simp [Option.filter]
      | some struckCid =>
        cases overlay.cleared <;> by_cases late : struckCid < curcid <;>
          simp [Option.filter, late]
    | some insertCid =>
      cases overlay.invalidatedCid tid with
      | none =>
        cases overlay.cleared <;> by_cases early : insertCid < curcid <;>
          simp [Option.filter, early]
      | some struckCid =>
        cases overlay.cleared <;>
          cases shadows : insertShadowsInvalidation insertCid struckCid <;>
          by_cases early : insertCid < curcid <;> by_cases late : struckCid < curcid <;>
          simp [Option.filter, shadows, early, late]

theorem Overlays.pendingTupleSlice_singleton (overlay : RelationOverlay) (tid : Tid) :
    pendingTupleSlice [overlay] tid = overlay.pendingTupleSlice tid := by
  unfold pendingTupleSlice
  cases overlay.pendingTupleSlice tid <;> simp [pendingTupleSlice]

namespace RelationStorage

variable (relation : RelationStorage)

theorem stackTupleSlice_singleton (overlay : RelationOverlay) (tid : Tid) (curcid : Option Nat) :
    relation.stackTupleSlice [overlay] tid curcid =
      (singleOverlayTidVisibility overlay tid curcid).bind (relation.readOverlay overlay tid) := by
  rw [stackTupleSlice, tidVisibility_singleton, pendingTupleSlice_singleton]
  rfl

/-- Stacks are read by the general rules, however many levels they have. -/
theorem physicalVisibleTupleSlice_stack (overlays : Overlays) (tid : Tid) :
    relation.physicalVisibleTupleSlice overlays tid = relation.stackTupleSlice overlays tid none := by
  unfold physicalVisibleTupleSlice
  split
  · exact (relation.stackTupleSlice_singleton ..).symm
  · simp only [stackTupleSlice, tidVisibility]
    split
    · rfl
    · split <;> rfl

theorem physicalVisibleTupleSliceAtCid_stack (overlays : Overlays) (tid : Tid) (curcid : Nat) :
    relation.physicalVisibleTupleSliceAtCid overlays tid curcid =
      relation.stackTupleSlice overlays tid (some curcid) := by
  unfold physicalVisibleTupleSliceAtCid
  split
  · exact (relation.stackTupleSlice_singleton ..).symm
  · simp only [stackTupleSlice, tidVisibility]
    split
    · rfl
    · split
      · rfl
      · split <;> rfl

theorem physicalVisibleTupleSlice_eq (overlays : Overlays) (tid : Tid) :
    relation.physicalVisibleTupleSlice overlays tid =
      if invalidateTid overlays tid then none
      else if clearTid overlays tid then none
      else ((if ownInsertedTid overlays tid then pendingTupleSlice overlays tid
        else none).or (relation.tupleSlice tid (ownInsertedTid overlays tid))) := by
  rw [physicalVisibleTupleSlice_stack, stackTupleSlice, tidVisibility]
  split
  · rfl
  · split
    · rfl
    · rw [bind_some]
      split <;> simp_all

/-- What is read by the rules for any stack is in an own page or in the relation. -/
theorem stackTupleSlice_read {relation : RelationStorage} {overlays : Overlays} {tid : Tid}
    {curcid : Option Nat} {tuple : Bytes}
    (found : relation.stackTupleSlice overlays tid curcid = some tuple) :
    overlays.pendingTupleSlice tid = some tuple ∨
      ∃ includePending, relation.tupleSlice tid includePending = some tuple := by
  obtain ⟨includePending, -, read⟩ := bind_eq_some_iff.mp found
  split at read
  · rename_i own
    cases read
    split at own
    · exact .inl own
    · cases own
  · exact .inr ⟨includePending, read⟩

end RelationStorage

end FastPg.Storage
