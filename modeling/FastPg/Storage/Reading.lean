import FastPg.Storage.Operations

/-! # What a session sees

Reading a tid through levels that cleared nothing, and the rows a session sees:
committed rows it did not invalidate, with its own rows on top.
-/

namespace FastPg.Storage

open Assoc Overlays

namespace Overlays

variable {overlays : Overlays} {tid : Tid}

/-- No level cleared the relation. -/
def Uncleared (overlays : Overlays) : Prop := ∀ overlay ∈ overlays, overlay.cleared = false

theorem uncleared_of_holdsClear (held : holdsClear overlays = false) : Uncleared overlays := by
  intro overlay mem
  simpa using List.any_eq_false.mp held overlay mem

/-- Whether some level invalidated the tid. -/
def invalidates (overlays : Overlays) (tid : Tid) : Prop :=
  ∃ overlay ∈ overlays, tid ∈ overlay.invalidatedTids

theorem Uncleared.tail {overlay : RelationOverlay} (uncleared : Uncleared (overlay :: overlays)) :
    Uncleared overlays := fun other mem => uncleared other (.tail _ mem)

theorem Uncleared.head {overlay : RelationOverlay} (uncleared : Uncleared (overlay :: overlays)) :
    overlay.cleared = false := uncleared overlay (.head _)

theorem Uncleared.ownInsertedTid (uncleared : Uncleared overlays) :
    ownInsertedTid overlays tid = true ↔ tid ∈ inserted overlays := by
  induction overlays with
  | nil => simp [Overlays.ownInsertedTid, inserted, Overlays.segment]
  | cons overlay outer ih =>
    rw [mem_inserted_cons, Overlays.ownInsertedTid]
    by_cases own : tid ∈ overlay.insertedTids
    · simp [own]
    · simp [own, uncleared.head, ih uncleared.tail]

theorem Uncleared.clearTid (uncleared : Uncleared overlays) :
    clearTid overlays tid = false := by
  induction overlays with
  | nil => rfl
  | cons overlay outer ih =>
    rw [Overlays.clearTid, uncleared.head]
    split
    · rfl
    · simpa using ih uncleared.tail

theorem Uncleared.invalidateTidFrom (uncleared : Uncleared overlays) (later : Option Nat) :
    invalidateTidFrom (fun _ => true) later overlays tid = true ↔
      invalidates overlays tid := by
  induction overlays generalizing later with
  | nil => simp [Overlays.invalidateTidFrom, invalidates]
  | cons overlay outer ih =>
    have tail := ih uncleared.tail
    unfold Overlays.invalidateTidFrom invalidates
    by_cases hit : tid ∈ overlay.invalidatedTids
    · simp [RelationOverlay.invalidatedCid, hit, uncleared.head, Option.filter_some]
    · simp only [RelationOverlay.invalidatedCid, hit, if_false, Option.filter_none]
      rw [tail]
      simp [invalidates, hit]

end Overlays

namespace RelationStorage

variable {relation : RelationStorage} {tid : Tid} {bytes : Bytes}

/-- Reading a tid through levels that cleared nothing. -/
theorem physicalVisibleTupleSlice_of_uncleared (relation : RelationStorage) {overlays : Overlays}
    (uncleared : Uncleared overlays) (tid : Tid) :
    (invalidates overlays tid → relation.physicalVisibleTupleSlice overlays tid = none) ∧
    (¬ invalidates overlays tid → tid ∉ inserted overlays →
      relation.physicalVisibleTupleSlice overlays tid = relation.tupleSlice tid false) ∧
    (¬ invalidates overlays tid → tid ∈ inserted overlays →
      relation.physicalVisibleTupleSlice overlays tid =
        (pendingTupleSlice overlays tid).or (relation.tupleSlice tid true)) := by
  unfold physicalVisibleTupleSlice
  split
  · rename_i overlay
    have head := uncleared.head
    have invalid : invalidates [overlay] tid ↔ tid ∈ overlay.invalidatedTids := by
      simp [invalidates]
    have own : tid ∈ inserted [overlay] ↔ tid ∈ overlay.insertedTids := by
      simp [inserted, Overlays.segment]
    rw [invalid, own]
    refine ⟨fun hit => ?_, fun miss other => ?_, fun miss mine => ?_⟩
    · simp [singleOverlayTidVisibility, head, hit]
    · simp [singleOverlayTidVisibility, head, miss, other, readOverlay]
    · simp only [singleOverlayTidVisibility, head, miss, mine, decide_true, decide_false,
        Bool.not_false, if_true, Bool.false_eq_true, if_false, Option.bind_some, readOverlay,
        pendingTupleSlice]
      cases overlay.pendingTupleSlice tid <;> simp
  · have invalid := @Uncleared.invalidateTidFrom overlays tid uncleared none
    have own := @Uncleared.ownInsertedTid overlays tid uncleared
    refine ⟨fun hit => ?_, fun miss other => ?_, fun miss mine => ?_⟩
    · simp [invalidateTid, invalid.mpr hit]
    · have notOwn : ownInsertedTid overlays tid = false := by
        simpa using fun mine => other (own.mp mine)
      have valid : invalidateTidFrom (fun _ => true) none overlays tid = false := by
        simpa using fun hit => miss (invalid.mp hit)
      simp [invalidateTid, valid, uncleared.clearTid, notOwn]
    · have valid : invalidateTidFrom (fun _ => true) none overlays tid = false := by
        simpa using fun hit => miss (invalid.mp hit)
      simp only [invalidateTid, valid, uncleared.clearTid, own.mpr mine, if_true,
        Bool.false_eq_true, if_false]
      cases pendingTupleSlice overlays tid <;> rfl

theorem tupleSlice_live :
    relation.tupleSlice tid false = some bytes ↔ relation.row tid = some (.live, bytes) := by
  rw [tupleSlice_eq]
  cases relation.row tid with
  | none => simp
  | some entry =>
    obtain ⟨state, stored⟩ := entry
    cases state <;> simp [Page.readable]

theorem mem_visibleRows {overlays : Overlays} :
    (tid, bytes) ∈ relation.visibleRows overlays ↔
      (tid ∈ relation.liveTids ∨ ∃ overlay ∈ overlays, tid ∈ overlay.insertedTids) ∧
        relation.physicalVisibleTupleSlice overlays tid = some bytes := by
  unfold visibleRows visibleTids
  simp only [List.mem_filterMap, List.mem_filter, Option.map_eq_some_iff, Prod.mk.injEq]
  constructor
  · rintro ⟨other, ⟨listed, -⟩, _, read, rfl, rfl⟩
    refine ⟨?_, read⟩
    have listed' := OrdSet.mem_ofList.mp listed
    simpa [OrdSet.mem_def] using listed'
  · rintro ⟨listed, read⟩
    refine ⟨tid, ⟨?_, by simp [read]⟩, bytes, read, rfl, rfl⟩
    apply OrdSet.mem_ofList.mpr
    simpa [OrdSet.mem_def] using listed

/-- Without levels the visible rows are the live ones. -/
theorem mem_visibleRows_nil (sound : relation.Sound) :
    (tid, bytes) ∈ relation.visibleRows [] ↔ relation.row tid = some (.live, bytes) := by
  rw [mem_visibleRows]
  have plain := (@physicalVisibleTupleSlice_of_uncleared relation []
    (by simp [Uncleared]) tid).2.1 (by simp [invalidates])
    (by simp [inserted, Overlays.segment])
  rw [plain, tupleSlice_live, sound.live]
  constructor
  · exact And.right
  · intro live
    exact ⟨.inl ⟨bytes, live⟩, live⟩

end RelationStorage

end FastPg.Storage
