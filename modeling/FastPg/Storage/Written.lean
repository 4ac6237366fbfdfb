import FastPg.Storage.Invariant

/-! # What is stored was written

Every row of a relation, of an own page and of a relation that a clear put
aside holds the bytes of a tuple that was written, and the rows in the own pages
of a level are rows that the level inserted. Row operations, transactions,
clears and copies all keep this.
-/

namespace FastPg.Storage

open Assoc Transition Option RelationStorage RelationOverlay Overlays
open List hiding insert lookup

def RelationStorage.Written (relation : RelationStorage) : Prop :=
  ∀ tid entry, relation.row tid = some entry → Encoded entry.2

structure RelationOverlay.Written (overlay : RelationOverlay) : Prop where
  rows : ∀ tid entry, overlay.pendingRow tid = some entry →
    Encoded entry.2 ∧ tid ∈ overlay.insertedTids
  saved : ∀ relation, overlay.clearedRelation = some relation → relation.Written

abbrev Local.Written (here : Local) : Prop :=
  here.Holds RelationStorage.Written RelationOverlay.Written

/-! ## Rows that stay -/

variable {before after : RelationStorage}

theorem RelationStorage.Written.congr (written : before.Written)
    (rows : ∀ tid, after.row tid = before.row tid) : after.Written := by
  intro tid entry found
  rw [rows] at found
  exact written tid entry found

theorem RelationStorage.Written.killed (written : before.Written)
    (rows : ∀ tid, after.row tid = before.row tid ∨ after.row tid = (before.row tid).map Local.kill) :
    after.Written := by
  intro tid entry found
  rcases rows tid with same | dead
  · rw [same] at found
    exact written tid entry found
  · rw [dead] at found
    obtain ⟨row, stored, rfl⟩ := map_eq_some_iff.mp found
    exact written tid row stored

namespace RelationOverlay.Written

theorem empty : Written {} :=
  ⟨by simp [pendingRow, pendingPage], by simp⟩

theorem congr {a b : RelationOverlay} (written : b.Written) (same : SamePages a b) : a.Written where
  rows := by
    intro tid entry found
    rw [pendingRow_congr same.pendingPages] at found
    rw [same.insertedTids]
    exact written.rows tid entry found
  saved := by
    rw [same.clearedRelation]
    exact written.saved

end RelationOverlay.Written

namespace Local

variable {catalog : RelationCatalog} {here here' : Local}

theorem Written.congr (written : here.Written) (rows : ∀ tid, here'.relation.row tid = here.relation.row tid)
    (levels : here'.overlays = here.overlays) : here'.Written :=
  ⟨written.relation.congr rows, levels ▸ written.levels⟩

end Local

/-! ## Row operations -/

variable {tuple : Bytes} {here : Local} {relation : RelationStorage}

theorem Places.written {result : Option Tid} {relation' : RelationStorage}
    {top top' : RelationOverlay} (places : Places tuple result relation relation' top top')
    (encoded : Encoded tuple) (stored : relation.Written) (level : top.Written) :
    relation'.Written ∧ top'.Written := by
  have saved : ∀ saved, top'.clearedRelation = some saved → saved.Written := by
    rw [places.notes.clearedRelation]
    exact level.saved
  rcases places.stored with ⟨rows, pages⟩ | ⟨pages, rows⟩
  · refine ⟨stored.congr rows, fun tid entry found => ?_, saved⟩
    rw [pages] at found
    split at found
    · rename_i placed
      cases found
      exact ⟨encoded, places.mem_inserted.mpr (.inr placed)⟩
    · obtain ⟨bytes, mine⟩ := level.rows tid entry found
      exact ⟨bytes, places.mem_inserted.mpr (.inl mine)⟩
  · refine ⟨fun tid entry found => ?_, fun tid entry found => ?_, saved⟩
    · rw [rows] at found
      split at found
      · cases found
        exact encoded
      · exact stored tid entry found
    · rw [pages] at found
      obtain ⟨bytes, mine⟩ := level.rows tid entry found
      exact ⟨bytes, places.mem_inserted.mpr (.inl mine)⟩

namespace Local

variable {catalog : RelationCatalog} {here here' : Local}

theorem Written.append {result : Option Tid} (written : here.Written)
    (stack : StackSound here.relation here.overlays) (encoded : Encoded tuple)
    (appended : here.appendPendingTuple catalog tuple = (here', result)) : here'.Written := by
  obtain ⟨top, top', outer, levels, levels', places⟩ := appendPendingTuple_places stack appended
  have started := written.opened .empty levels
  obtain ⟨stored, level⟩ := places.written encoded written.relation
    (started.levels top (.head _))
  have next := started.withTop stored level
  rwa [← levels'] at next

/-- Stamps change no row and no list of rows. -/
theorem Stamps.written (stamps : Stamps here here') (written : here.Written) : here'.Written := by
  cases stamps with
  | @own relation top _ _ _ _ keeps stamped =>
    obtain ⟨pages, rfl, -, rows⟩ :=
      modifyPendingPage_spec keeps.block keeps.row stamped
    have level := written.levels top (mem_cons_self ..)
    refine written.withTop written.relation ⟨fun other entry found => ?_, level.saved⟩
    rw [rows] at found
    exact level.rows other entry found
  | shared stamped => exact written.congr (congrFun stamped.same.1) rfl

theorem Written.compress (written : here.Written) (compressed : Compresses here here') :
    here'.Written := by
  obtain ⟨same, levels⟩ := compressed.same
  exact written.congr (fun tid => congrFun same.row tid) levels

theorem replaceRow_samePages (top : RelationOverlay) (old new : Tid) (hot : Bool) :
    SamePages (let top := (top.invalidate old).insertUpdateRedirect old new
      if hot then top.insertHotRedirect old new else top) top := by
  have updated := (insertUpdateRedirect_sameRows (top.invalidate old) old new).pages
  have kept : SamePages ((top.invalidate old).insertUpdateRedirect old new) top :=
    ⟨updated.1, updated.2, updated.3, updated.4, updated.5⟩
  dsimp only
  split
  · unfold RelationOverlay.insertHotRedirect
    split
    · exact kept
    · exact ⟨kept.1, kept.2, kept.3, kept.4, kept.5⟩
  · exact kept

theorem Edit.written (edit : Edit catalog here here') (written : here.Written)
    (stack : StackSound here.relation here.overlays) : here'.Written := by
  cases edit with
  | start => exact written.start .empty
  | compress compressed => exact written.compress (.single compressed)
  | limit maxTuples => exact written.congr (fun _ => rfl) rfl
  | append encoded appended => exact written.append stack encoded appended
  | replace hot encoded visible appended =>
    exact (written.append stack encoded appended).modifyTop fun top level =>
      level.congr (replaceRow_samePages top _ _ hot)
  | strike _ visible =>
    exact ((written.compress (resolveForWrite_compresses _)).start .empty).modifyTop
      fun _ level => level.congr ⟨rfl, rfl, rfl, rfl, rfl⟩
  | stampInsert tid xid cid own =>
    exact (setInsertMetadata_stamps ..).written (written.modifyTop fun _ level =>
      level.congr ⟨rfl, rfl, rfl, rfl, rfl⟩)
  | stampXmax tid xmax => exact (setRowXmax_stamps ..).written written
  | note f same tidy => exact written.modifyTop fun top level => level.congr (same top).toSameRows.pages

end Local

/-! ## Transactions, clears and copies -/

namespace Local

variable {catalog : RelationCatalog} {here here' : Local} {relation : RelationStorage}
  {top overlay : RelationOverlay} {outer : Overlays} {relation' : RelationStorage}

theorem rollbackOverlay_written (stored : relation.Written) (sound : relation.Sound)
    (level : top.Written) :
    (rollbackOverlay relation top).Written := by
  cases saved : top.clearedRelation with
  | some snapshot =>
    unfold rollbackOverlay
    rw [saved]
    exact level.saved snapshot saved
  | none =>
    have uncleared : top.cleared = false := by simp [cleared, saved]
    exact stored.killed (rollbackOverlay_spec sound uncleared).1.rows

theorem restoreRelationSnapshot_written (stored : relation.Written) :
    (overlay.restoreRelationSnapshot relation).Written := by
  refine stored.killed fun tid => ?_
  have row := (restorePages_spec overlay.pageCheckpoints relation).1 tid
  have same : (overlay.restoreRelationSnapshot relation).row tid =
      (restorePages overlay.pageCheckpoints relation).row tid := by
    unfold restoreRelationSnapshot
    dsimp only
    cases overlay.relationCheckpoint <;> rfl
  rw [same, row]
  split
  · exact .inr rfl
  · exact .inl rfl

theorem absorbClear_written {parent child : RelationOverlay} (outside : parent.Written)
    (inside : child.Written) : (parent.absorbClear child).Written := by
  have nothing : ∀ tid entry, parent.dropRows.pendingRow tid = some entry →
      Encoded entry.2 ∧ tid ∈ parent.dropRows.insertedTids := by
    simp [pendingRow, pendingPage, dropRows]
  unfold absorbClear
  split
  · exact outside
  · rename_i snapshot taken
    split
    · exact ⟨nothing, outside.saved⟩
    · refine ⟨nothing, fun relation saved => ?_⟩
      cases saved
      exact restoreRelationSnapshot_written (inside.saved snapshot taken)

theorem appendFrom_written {parent child : RelationOverlay} (outside : parent.Written)
    (inside : child.Written) : (parent.appendFrom child).Written := by
  have base := absorbClear_written outside inside
  refine ⟨fun tid entry found => ?_, base.saved⟩
  rw [pendingRow_append rfl] at found
  split at found
  · exact (inside.rows tid entry found).imp_right fun mine => mem_pushAll.mpr (.inr mine)
  · exact (base.rows tid entry found).imp_right fun mine => mem_pushAll.mpr (.inl mine)

/-- What a commit stores has the bytes of a row that was there or in an own page. -/
theorem commitOverlay_written (level : LevelSound relation overlay outer)
    (stored : relation.Written) (written : overlay.Written)
    (h : commitOverlay relation overlay = some relation') :
    relation'.Written := by
  unfold commitOverlay at h
  cases published : overlay.pendingPages.foldlM (publishPage overlay) (relation, []) with
  | none => simp [published] at h
  | some state =>
    simp only [published, bind_eq_bind, bind_some, some.injEq] at h
    subst h
    obtain ⟨kept, done, outcome, -⟩ := published_of_commit level published
    have middle : state.1.Written := by
      intro tid entry found
      rcases outcome.sourced tid entry found with old | ⟨page, mem, here, row⟩ | ⟨old, moved⟩
      · exact stored tid entry old
      · have paged := pendingRow_of_mem level.distinct
          (outcome.keptFiled page mem).1 here
        exact (written.rows tid entry (paged.trans row)).1
      · obtain ⟨-, bytes, paged, row⟩ := outcome.moved old tid moved
        rw [found] at row
        cases row
        exact (written.rows old _ paged).1
    intro tid entry found
    rw [(publishChanges_spec _ _).1] at found
    unfold appliedRow at found
    dsimp only at found
    have bytes : ∃ row, state.1.row tid = some row ∧ row.2 = entry.2 := by
      split at found
      · obtain ⟨row, stored, rfl⟩ := map_eq_some_iff.mp found
        split at stored
        · obtain ⟨row', stored', rfl⟩ := map_eq_some_iff.mp stored
          exact ⟨row', stored', rfl⟩
        · exact ⟨row, stored, rfl⟩
      · split at found
        · obtain ⟨row', stored', rfl⟩ := map_eq_some_iff.mp found
          exact ⟨row', stored', rfl⟩
        · exact ⟨entry, found, rfl⟩
    obtain ⟨row, stored', same⟩ := bytes
    exact same ▸ middle tid row stored'

theorem replacement_written (relation : RelationStorage) (preserveTidSpace : Bool) :
    (replacement relation preserveTidSpace).Written := by
  intro tid entry found
  rw [replacement_row] at found
  cases found

theorem clear_written (written : here.Written) (stack : StackSound here.relation here.overlays)
    (preserveTidSpace : Bool) : (here.clear catalog preserveTidSpace).Written := by
  obtain ⟨relation, overlays⟩ := here
  cases overlays with
  | nil => exact ⟨replacement_written relation preserveTidSpace, written.levels⟩
  | cons top outer =>
    obtain ⟨top', cleared, -, saved, blocks, -⟩ := clear_spec catalog preserveTidSpace stack
    rw [cleared]
    have level := written.levels top (mem_cons_self ..)
    refine written.withTop (replacement_written _ _) ⟨fun tid entry found => ?_, fun snapshot taken => ?_⟩
    · have mem := mem_blocks_of_pendingRow found
      rw [blocks] at mem
      cases mem
    · rw [saved] at taken
      cases taken
      cases earlier : top.clearedRelation with
      | some first => exact level.saved first earlier
      | none => exact restoreRelationSnapshot_written written.relation

end Local

/-! ## Reading what was written -/

variable {tid : Tid}

theorem RelationStorage.Written.tupleSlice (written : relation.Written) {includePending : Bool}
    (found : relation.tupleSlice tid includePending = some tuple) : Encoded tuple := by
  rw [tupleSlice_eq] at found
  obtain ⟨row, stored, read⟩ := bind_eq_some_iff.mp found
  split at read
  · cases read
    exact written tid row stored
  · cases read

theorem RelationOverlay.Written.pendingTupleSlice {overlay : RelationOverlay}
    (written : overlay.Written) {tid : Tid} {tuple : Bytes}
    (found : overlay.pendingTupleSlice tid = some tuple) :
    Encoded tuple ∧ tid ∈ overlay.insertedTids := by
  rw [pendingTupleSlice_eq] at found
  obtain ⟨row, stored, read⟩ := bind_eq_some_iff.mp found
  split at read
  · cases read
    exact written.rows tid row stored
  · cases read

/-- A tuple in an own page is one the session inserted. -/
theorem Overlays.own_of_pendingTupleSlice {overlays : Overlays}
    (written : ∀ overlay ∈ overlays, overlay.Written)
    (found : pendingTupleSlice overlays tid = some tuple) :
    Encoded tuple ∧ ownInsertedTid overlays tid = true := by
  induction overlays with
  | nil => cases found
  | cons overlay outer ih =>
    unfold pendingTupleSlice at found
    unfold ownInsertedTid
    cases own : overlay.pendingTupleSlice tid with
    | some pending =>
      rw [own] at found
      cases found
      obtain ⟨encoded, mine⟩ := (written overlay (mem_cons_self ..)).pendingTupleSlice own
      rw [if_pos mine]
      exact ⟨encoded, rfl⟩
    | none =>
      rw [own] at found
      cases cleared : overlay.cleared with
      | true => simp [cleared] at found
      | false =>
        simp only [cleared, Bool.false_eq_true, if_false] at found
        obtain ⟨encoded, mine⟩ :=
          ih (fun other mem => written other (.tail _ mem)) found
        rw [mine]
        exact ⟨encoded, by simp⟩

theorem Local.Written.stackTupleSlice (written : here.Written) {curcid : Option Nat}
    (found : here.relation.stackTupleSlice here.overlays tid curcid = some tuple) :
    Encoded tuple := by
  rcases stackTupleSlice_read found with own | ⟨includePending, stored⟩
  · exact (own_of_pendingTupleSlice written.levels own).1
  · exact written.relation.tupleSlice stored

theorem Local.Written.physicalVisibleTupleSlice (written : here.Written)
    (found : here.relation.physicalVisibleTupleSlice here.overlays tid = some tuple) :
    Encoded tuple := by
  rw [physicalVisibleTupleSlice_stack] at found
  exact written.stackTupleSlice found

theorem Local.Written.physicalVisibleTupleSliceAtCid (written : here.Written) {curcid : Nat}
    (found : here.relation.physicalVisibleTupleSliceAtCid here.overlays tid curcid = some tuple) :
    Encoded tuple := by
  rw [physicalVisibleTupleSliceAtCid_stack] at found
  exact written.stackTupleSlice found

/-! ## Every session -/

theorem written_inductive : Inductive Written Written where
  initial := by
    intro tid entry found
    simp [RelationStorage.row, RelationStorage.page, RelationStorage.default] at found
  empty := .empty
  edit := Local.Edit.written
  release := Local.appendFrom_written
  rollback := Local.rollbackOverlay_written
  commit := Local.commitOverlay_written
  clear := Local.clear_written

namespace Engine

variable {catalog : Catalog} {engine : Engine}

theorem visibleTuples_encoded (written : ∀ relid sid, ((engine.storage.view relid).reach sid).Written)
    (sid : SessionId) (relid : Relid) :
    ∀ tuple ∈ engine.storage.visibleTuples sid relid, Encoded tuple := by
  intro tuple mem
  obtain ⟨tid, -, seen⟩ := mem_filterMap.mp mem
  exact (written relid sid).physicalVisibleTupleSlice seen

variable (reached : Reaches (Engine.step catalog) Respects .initial engine)
include reached

theorem reaches_written (relid : Relid) (sid : SessionId) :
    ((engine.storage.view relid).reach sid).Written := by
  revert relid sid
  induction reached with
  | refl => exact holds_initial written_inductive
  | tail before _ taken ih =>
    exact holds_step written_inductive (reaches_kept before) (visibleTuples_encoded ih) ih taken

theorem reaches_holds {stored : RelationStorage → Prop} {level : RelationOverlay → Prop}
    (kept : Inductive stored level) (relid : Relid) : (engine.storage.view relid).Holds stored level := by
  revert relid
  induction reached with
  | refl => exact holds_initial kept
  | tail before _ taken ih =>
    exact holds_step kept (reaches_kept before) (visibleTuples_encoded (reaches_written before)) ih taken

end Engine

end FastPg.Storage
