import FastPg.Storage.Isolation
import FastPg.Storage.Orderly

/-! # Releasing a savepoint

A release merges the innermost level into the one outside it. Reading goes
through the stack level by level, innermost first, and the merged level has to
answer for both. It does, unless the release mixes up what was recorded before
and after a clear, or two stamps of one row.
-/

namespace FastPg.Storage

open Assoc Redirect Transition RelationStorage RelationOverlay Overlays Option

/-! ## Reading through a stack -/

theorem RelationOverlay.hasVisibilityDeltas_iff {overlay : RelationOverlay} :
    overlay.hasVisibilityDeltas = true ↔
      ∃ tid, tid ∈ overlay.insertedTids ∨ tid ∈ overlay.invalidatedTids := by
  simp only [hasVisibilityDeltas, Bool.or_eq_true, Bool.not_eq_true', List.isEmpty_eq_false_iff_exists_mem,
    exists_or]

/-- Two stacks that answer whatever a reader asks of them alike. -/
structure Alike (a b : Overlays) : Prop where
  redirect : Overlays.tidRedirect b = Overlays.tidRedirect a
  update : Overlays.updateRedirect b = Overlays.updateRedirect a
  deltas : Overlays.hasVisibilityDeltas b = Overlays.hasVisibilityDeltas a
  clear : Overlays.clearTid b = Overlays.clearTid a
  own : Overlays.ownInsertedTid b = Overlays.ownInsertedTid a
  cid : Overlays.insertedCid b = Overlays.insertedCid a
  struck : ∀ before, Overlays.invalidateTidFrom before none b =
    Overlays.invalidateTidFrom before none a
  pending : Overlays.pendingTupleSlice b = Overlays.pendingTupleSlice a
  rows : ∀ tid, (∃ overlay ∈ b, tid ∈ overlay.insertedTids) ↔
    ∃ overlay ∈ a, tid ∈ overlay.insertedTids

namespace Alike

variable {a b : Overlays} (alike : Alike a b) (relation : RelationStorage)
include alike

theorem tidVisibility (tid : Tid) (curcid : Option Nat) :
    b.tidVisibility tid curcid = a.tidVisibility tid curcid := by
  cases curcid with
  | none =>
    rw [Overlays.tidVisibility, Overlays.tidVisibility, Overlays.invalidateTid, alike.struck,
      alike.clear, alike.own, invalidateTid]
  | some curcid =>
    have before : b.ownInsertedTidBefore tid curcid = a.ownInsertedTidBefore tid curcid := by
      rw [ownInsertedTidBefore, alike.cid, ownInsertedTidBefore]
    rw [Overlays.tidVisibility, Overlays.tidVisibility, Overlays.invalidateTidBefore, alike.struck,
      alike.clear, alike.own, before, invalidateTidBefore]

theorem stackTupleSlice : relation.stackTupleSlice b = relation.stackTupleSlice a := by
  funext tid curcid
  simp only [RelationStorage.stackTupleSlice, alike.tidVisibility, alike.pending]

theorem physicalVisibleTupleSlice :
    relation.physicalVisibleTupleSlice b = relation.physicalVisibleTupleSlice a := by
  funext tid
  rw [physicalVisibleTupleSlice_stack, alike.stackTupleSlice,
    physicalVisibleTupleSlice_stack]

theorem physicalVisibleTupleSliceAtCid :
    relation.physicalVisibleTupleSliceAtCid b = relation.physicalVisibleTupleSliceAtCid a := by
  funext tid curcid
  rw [physicalVisibleTupleSliceAtCid_stack, alike.stackTupleSlice,
    physicalVisibleTupleSliceAtCid_stack]

theorem hotNext : relation.hotNext b = relation.hotNext a := by
  simp only [RelationStorage.hotNext, alike.redirect]

theorem resolveTidRedirect : relation.resolveTidRedirect b = relation.resolveTidRedirect a := by
  funext tid
  simp only [RelationStorage.resolveTidRedirect, alike.hotNext]

theorem resolveUpdateRedirect :
    relation.resolveUpdateRedirect b = relation.resolveUpdateRedirect a := by
  funext tid
  simp only [RelationStorage.resolveUpdateRedirect, RelationStorage.updateNext, alike.update]

theorem fetchTid (tid : Tid) : relation.fetchTid b tid = relation.fetchTid a tid := by
  simp only [RelationStorage.fetchTid, RelationStorage.resolveTidRedirectCompress, alike.redirect,
    visibleTupleSlice, alike.resolveTidRedirect, alike.physicalVisibleTupleSlice]

theorem visibleTupleSliceAtCid :
    relation.visibleTupleSliceAtCid b = relation.visibleTupleSliceAtCid a := by
  funext tid curcid
  simp only [RelationStorage.visibleTupleSliceAtCid, alike.hotNext,
    alike.physicalVisibleTupleSliceAtCid]

theorem visibleTids : relation.visibleTids b = relation.visibleTids a := by
  have same : OrdSet.ofList (relation.liveTids.elems ++
        b.reverse.flatMap RelationOverlay.insertedTids) =
      OrdSet.ofList (relation.liveTids.elems ++
        a.reverse.flatMap RelationOverlay.insertedTids) := by
    apply OrdSet.ext
    intro tid
    simp only [OrdSet.mem_ofList, List.mem_append, List.mem_flatMap, List.mem_reverse, alike.rows]
  simp only [RelationStorage.visibleTids, same, alike.physicalVisibleTupleSlice]

theorem visibleEntry : relation.visibleEntry b = relation.visibleEntry a := by
  funext tid
  simp only [RelationStorage.visibleEntry, alike.resolveTidRedirect, alike.physicalVisibleTupleSlice]

theorem primaryKeyLookupFrom (key : IndexKey) (rest : Overlays) :
    relation.primaryKeyLookupFrom b key rest = relation.primaryKeyLookupFrom a key rest := by
  induction rest with
  | nil => simp only [RelationStorage.primaryKeyLookupFrom, alike.visibleEntry]
  | cons overlay outer ih => simp only [RelationStorage.primaryKeyLookupFrom, alike.visibleEntry, ih]

end Alike

/-! ## Merging two levels -/

/-- A level that answers for two, the child before the parent. -/
structure Merges (child parent merged : RelationOverlay) : Prop where
  cleared : merged.cleared = (parent.cleared || child.cleared)
  insertedCid : ∀ tid, merged.insertedCid tid = (child.insertedCid tid).or (parent.insertedCid tid)
  invalidatedCid : ∀ tid, merged.invalidatedCid tid =
    (child.invalidatedCid tid).or (parent.invalidatedCid tid)
  pending : ∀ tid, merged.pendingTupleSlice tid =
    (child.pendingTupleSlice tid).or (parent.pendingTupleSlice tid)
  redirect : ∀ tid, lookup merged.hotRedirectInserts tid =
    (lookup child.hotRedirectInserts tid).or (lookup parent.hotRedirectInserts tid)
  update : ∀ tid, lookup merged.updateRedirectInserts tid =
    (lookup child.updateRedirectInserts tid).or (lookup parent.updateRedirectInserts tid)
  key : ∀ key, lookup merged.primaryKeyInserts key =
    (lookup child.primaryKeyInserts key).or (lookup parent.primaryKeyInserts key)
  deletes : ∀ key, key ∈ merged.primaryKeyDeletes ↔
    key ∈ child.primaryKeyDeletes ∨ key ∈ parent.primaryKeyDeletes

variable {child parent : RelationOverlay} {outer : Overlays}

/-- The fields of a merged level, where the child did not clear or the parent
    holds nothing. -/
theorem RelationOverlay.appendFrom_fields (clears : child.cleared = true → parent = {}) :
    ∃ saved, parent.appendFrom child =
      { pendingPages := parent.pendingPages ++ child.pendingPages
        relationCheckpoint := parent.relationCheckpoint.or child.relationCheckpoint
        pageCheckpoints := child.pageCheckpoints.foldl
          (fun acc entry => insertNew acc entry.1 entry.2) parent.pageCheckpoints
        insertedTids := pushAll parent.insertedTids child.insertedTids
        insertedCids := extend parent.insertedCids child.insertedCids
        invalidatedTids := pushAll parent.invalidatedTids child.invalidatedTids
        invalidatedMetadata := extend parent.invalidatedMetadata child.invalidatedMetadata
        hotRedirectInserts := extend parent.hotRedirectInserts child.hotRedirectInserts
        updateRedirectInserts := extend parent.updateRedirectInserts child.updateRedirectInserts
        primaryKeyInserts := extend parent.primaryKeyInserts child.primaryKeyInserts
        primaryKeyDeletes := pushAll parent.primaryKeyDeletes child.primaryKeyDeletes
        indexInserts := mergeIndexInserts parent.indexInserts child.indexInserts
        clearedRelation := saved } ∧ saved.isSome = (parent.cleared || child.cleared) := by
  cases saved : child.clearedRelation with
  | none =>
    refine ⟨parent.clearedRelation, ?_, ?_⟩
    · simp [appendFrom, absorbClear, saved]
    · simp [cleared, saved]
  | some relation =>
    have cleared : child.cleared = true := by simp [cleared, saved]
    cases clears cleared
    refine ⟨some (restoreRelationSnapshot {} relation), ?_, by simp [cleared]⟩
    simp only [appendFrom, absorbClear, saved, dropRows]

/-- The rows of the two levels are different ones. -/
theorem Overlays.Orderly.apartRows (orderly : Orderly (child :: parent :: outer))
    (clears : child.cleared = true → parent = {}) {tid : Tid} (own : tid ∈ child.insertedTids) :
    tid ∉ parent.insertedTids := by
  cases empty : child.cleared with
  | true => simp [clears empty]
  | false =>
    exact fun shared =>
      orderly.2.1 empty tid own (mem_inserted_cons.mpr (.inl shared))

theorem RelationOverlay.appendFrom_merges {relation : RelationStorage}
    (clears : child.cleared = true → parent = {})
    (struck : ∀ tid ∈ child.invalidatedTids, tid ∉ parent.invalidatedTids)
    (stack : StackSound relation (child :: parent :: outer))
    (orderly : Overlays.Orderly (child :: parent :: outer)) :
    Merges child parent (parent.appendFrom child) := by
  obtain ⟨saved, fields, cleared⟩ := appendFrom_fields clears
  have apartRows : ∀ tid ∈ child.insertedTids, tid ∉ parent.insertedTids :=
    fun tid own => orderly.apartRows clears own
  obtain ⟨inside, -, outside, -⟩ := orderly
  have apartBlocks : ∀ block ∈ child.blocks, block ∉ parent.blocks := by
    intro block own
    cases empty : child.cleared with
    | true => simp [clears empty, blocks]
    | false =>
      exact fun shared => stack.1.apart empty block own (mem_blocks_cons.mpr (.inl shared))
  have absent : ∀ {ν : Type} (entries : List (Tid × ν)) (tids : List Tid) (tid : Tid),
      (∀ tid ∈ entries.map Prod.fst, tid ∈ tids) → tid ∉ tids → lookup entries tid = none := by
    intro ν entries tids tid known missing
    exact lookup_eq_none.mpr fun value mem =>
      missing (known tid (List.mem_map.mpr ⟨_, mem, rfl⟩))
  constructor
  · rw [fields]
    exact cleared
  · intro tid
    rw [fields]
    simp only [insertedCid, mem_pushAll, Dict.lookup_extend_keyed inside.insertedCids]
    by_cases own : tid ∈ child.insertedTids
    · have elsewhere := absent _ _ tid outside.stamped (apartRows tid own)
      simp [own, elsewhere]
    · have elsewhere := absent _ _ tid inside.stamped own
      simp [own, elsewhere]
  · intro tid
    rw [fields]
    simp only [invalidatedCid, mem_pushAll, Dict.lookup_extend_keyed inside.invalidatedMetadata]
    by_cases own : tid ∈ child.invalidatedTids
    · have elsewhere := absent _ _ tid outside.struck (struck tid own)
      simp [own, elsewhere]
    · have elsewhere := absent _ _ tid inside.struck own
      simp [own, elsewhere]
  · intro tid
    have rows := @pendingRow_append (parent.appendFrom child) parent child (by rw [fields]) tid
    rw [pendingTupleSlice_eq, pendingTupleSlice_eq, pendingTupleSlice_eq, rows]
    by_cases own : tid.block ∈ child.blocks
    · have elsewhere : parent.pendingRow tid = none := by
        cases found : parent.pendingRow tid with
        | none => rfl
        | some entry => exact absurd (mem_blocks_of_pendingRow found) (apartBlocks _ own)
      simp [own, elsewhere]
    · have elsewhere : child.pendingRow tid = none := by
        cases found : child.pendingRow tid with
        | none => rfl
        | some entry => exact absurd (mem_blocks_of_pendingRow found) own
      simp [own, elsewhere]
  · intro tid
    rw [fields]
    exact Dict.lookup_extend_keyed inside.hotRedirectInserts tid
  · intro tid
    rw [fields]
    exact Dict.lookup_extend_keyed inside.updateRedirectInserts tid
  · intro key
    rw [fields]
    exact Dict.lookup_extend_keyed inside.primaryKeyInserts key
  · intro key
    rw [fields, mem_pushAll]
    exact or_comm

/-- Two neighbouring levels that are merged without loss. The child cleared
    nothing, or there is nothing to clear in the parent. No row is struck out by
    both. Where the parent cleared, no insertion outlives what the child struck
    out. A key that the child deleted, or holds a hidden row of, is hidden in
    the parent too. Redirects end below the hop limit. -/
structure Mergeable (relation : RelationStorage) (child parent : RelationOverlay)
    (outer : Overlays) : Prop where
  clears : child.cleared = true → parent.isEmpty = true
  struck : ∀ tid ∈ child.invalidatedTids, tid ∉ parent.invalidatedTids
  shadows : parent.cleared = true → ∀ tid struckCid insertCid,
    child.invalidatedCid tid = some struckCid →
    (child.insertedCid tid = some insertCid ∨ parent.insertedCid tid = some insertCid) →
    insertShadowsInvalidation insertCid struckCid = false
  keys : ∀ key, (lookup child.primaryKeyInserts key).isSome ∨ key ∈ child.primaryKeyDeletes →
    (lookup child.primaryKeyInserts key).bind
      (relation.visibleEntry (child :: parent :: outer)) = none →
    (lookup parent.primaryKeyInserts key).bind
      (relation.visibleEntry (child :: parent :: outer)) = none
  ends : Ended relation (child :: parent :: outer)

namespace Mergeable

variable {relation : RelationStorage} {child parent merged : RelationOverlay} {outer : Overlays}
  (mergeable : Mergeable relation child parent outer) (merges : Merges child parent merged)
include mergeable

theorem empty (cleared : child.cleared = true) :
    parent = {} :=
  eq_empty (mergeable.clears cleared)

include merges

/-- Walking over the two levels, or over the merged one. -/
theorem invalidateTidFrom
    (apart : ∀ tid, child.insertedCid tid = none ∨ parent.insertedCid tid = none)
    (before : Nat → Bool) (tid : Tid) :
    invalidateTidFrom before none (merged :: outer) tid =
      invalidateTidFrom before none (child :: parent :: outer) tid := by
  have later : (merged.insertedCid tid).filter before =
      ((parent.insertedCid tid).filter before).or ((child.insertedCid tid).filter before) := by
    rw [merges.insertedCid]
    rcases apart tid with none' | none' <;> simp [none']
  simp only [Overlays.invalidateTidFrom, later, Option.or_none, merges.invalidatedCid, merges.cleared]
  cases inside : child.invalidatedCid tid with
  | none =>
    cases cleared : child.cleared with
    | true => simp [mergeable.empty cleared, invalidatedCid]
    | false => simp
  | some struckCid =>
    have elsewhere : parent.invalidatedCid tid = none := by
      have missing := mergeable.struck tid
        (mem_invalidatedTids.mpr (by simp [inside]))
      rw [mem_invalidatedTids] at missing
      simpa using missing
    cases early : before struckCid with
    | false => simp [Option.filter, early, elsewhere]
    | true =>
      cases cleared : child.cleared with
      | true => simp [Option.filter, early, mergeable.empty cleared, RelationOverlay.insertedCid,
          RelationOverlay.cleared]
      | false =>
        cases emptied : parent.cleared with
        | false => simp [Option.filter, early]
        | true =>
          -- Whatever insertion was met, it does not outlive this.
          have hidden : ∀ insertCid,
              ((parent.insertedCid tid).filter before).or
                ((child.insertedCid tid).filter before) = some insertCid →
              insertShadowsInvalidation insertCid struckCid = false := by
            intro insertCid met
            rw [or_eq_some_iff] at met
            refine mergeable.shadows emptied tid struckCid insertCid inside ?_
            rcases met with outside | ⟨-, own⟩
            · exact .inr (filter_eq_some_iff.mp outside).1
            · exact .inl (filter_eq_some_iff.mp own).1
          cases met : ((parent.insertedCid tid).filter before).or
              ((child.insertedCid tid).filter before) with
          | none => simp [Option.filter, early]
          | some insertCid => simp [Option.filter, early, hidden insertCid met]

theorem alike (apart : ∀ tid, child.insertedCid tid = none ∨ parent.insertedCid tid = none) :
    Alike (child :: parent :: outer) (merged :: outer) where
  redirect := by
    funext tid
    simp only [tidRedirect, List.findSome?_cons, merges.redirect]
    cases lookup child.hotRedirectInserts tid <;> simp
  update := by
    funext tid
    simp only [updateRedirect, List.findSome?_cons, merges.update]
    cases lookup child.updateRedirectInserts tid <;> simp
  deltas := by
    rw [Bool.eq_iff_iff]
    simp only [Overlays.hasVisibilityDeltas, List.any_cons, Bool.or_eq_true,
      hasVisibilityDeltas_iff, mem_insertedTids,
      mem_invalidatedTids, merges.insertedCid, merges.invalidatedCid,
      isSome_or, exists_or]
    tauto
  clear := by
    funext tid
    simp only [clearTid, mem_insertedTids, merges.insertedCid,
      merges.cleared]
    cases cleared : child.cleared with
    | true => cases child.insertedCid tid <;> simp [mergeable.empty cleared, RelationOverlay.insertedCid]
    | false => cases child.insertedCid tid <;> simp
  own := by
    funext tid
    simp only [ownInsertedTid, mem_insertedTids, merges.insertedCid,
      merges.cleared]
    cases cleared : child.cleared with
    | true => cases child.insertedCid tid <;> simp [mergeable.empty cleared, RelationOverlay.insertedCid]
    | false => cases child.insertedCid tid <;> simp
  cid := by
    funext tid
    simp only [Overlays.insertedCid, List.findSome?_cons, merges.insertedCid]
    cases child.insertedCid tid <;> simp
  struck := fun before => funext (mergeable.invalidateTidFrom merges apart before)
  pending := by
    funext tid
    simp only [Overlays.pendingTupleSlice, merges.pending, merges.cleared]
    cases cleared : child.cleared with
    | true =>
      cases child.pendingTupleSlice tid <;>
        simp [mergeable.empty cleared, RelationOverlay.pendingTupleSlice, RelationOverlay.pendingPage]
    | false => cases child.pendingTupleSlice tid <;> simp
  rows := by
    intro tid
    simp only [List.exists_mem_cons_iff, mem_insertedTids, merges.insertedCid,
      isSome_or, Bool.or_eq_true]
    tauto

theorem primaryKeyLookupFrom
    (alike : Alike (child :: parent :: outer) (merged :: outer)) (key : IndexKey) :
    relation.primaryKeyLookupFrom (merged :: outer) key (merged :: outer) =
      relation.primaryKeyLookupFrom (child :: parent :: outer) key (child :: parent :: outer) := by
  have hidden := mergeable.keys key
  rw [alike.primaryKeyLookupFrom]
  simp only [RelationStorage.primaryKeyLookupFrom, merges.key, merges.deletes]
  cases own : lookup child.primaryKeyInserts key with
  | none =>
    by_cases deleted : key ∈ child.primaryKeyDeletes
    · simp [hidden (.inr deleted) (by simp [own]), deleted]
    · simp [deleted]
  | some tid =>
    cases shown : relation.visibleEntry (child :: parent :: outer) tid with
    | some row => simp [shown]
    | none =>
      have outside := hidden (.inl (by simp [own])) (by simp [own, shown])
      by_cases deleted : key ∈ child.primaryKeyDeletes <;> simp [shown, outside, deleted]

/-- A release leaves what the session sees. -/
theorem sight (apart : ∀ tid, child.insertedCid tid = none ∨ parent.insertedCid tid = none) :
    SameSight ⟨relation, child :: parent :: outer⟩ ⟨relation, merged :: outer⟩ := by
  have alike := mergeable.alike merges apart
  have ended : Ended relation (merged :: outer) := by
    intro tid
    rw [alike.hotNext]
    exact mergeable.ends tid
  refine ⟨fun tid => by rw [alike.fetchTid], fun tid curcid => by rw [alike.visibleTupleSliceAtCid],
    alike.visibleTids relation, fun key => ?_⟩
  rw [ended.primaryKeyLookup, mergeable.ends.primaryKeyLookup]
  unfold primaryKeyLookupRead
  rw [alike.deltas, mergeable.primaryKeyLookupFrom merges alike]

end Mergeable

/-! ## Releases in a run -/

/-- What a release does to the levels of a relation. -/
theorem StorageState.subxactCommit_localView (state : StorageState) (sid : SessionId) (relid : Relid) :
    (state.subxactCommit sid).localView sid relid = state.localView sid relid ∨
      ∃ child parent outer, state.overlays sid relid = child :: parent :: outer ∧
        (state.subxactCommit sid).localView sid relid =
          ⟨state.relations relid, parent.appendFrom child :: outer⟩ := by
  unfold subxactCommit
  dsimp only
  split
  · rename_i child parent outer levels
    refine .inr ⟨child.get relid, parent.get relid, outer.map fun level => level.get relid, ?_, ?_⟩
    · simp [overlays, levels]
    · simp [localView, setSession, overlays, TransactionOverlay.appendFrom]
  · exact .inl rfl

/-- Releasing a savepoint changes nothing that the session can see, if its
    innermost levels are mergeable. -/
theorem release_keeps_sight {catalog : Catalog} {state state' : StorageState} {sid : SessionId}
    (reached : Reaches (step catalog) RespectsClears .initial state)
    (taken : step catalog state ⟨sid, .subxactCommit⟩ = some state') {relid : Relid}
    (mergeable : ∀ child parent outer, state.overlays sid relid = child :: parent :: outer →
      Mergeable (state.relations relid) child parent outer) :
    SameSight (state.localView sid relid) (state'.localView sid relid) ∧
      (∀ tid, (state'.relations relid).resolveTidRedirect (state'.overlays sid relid) tid =
        (state.relations relid).resolveTidRedirect (state.overlays sid relid) tid) ∧
      ∀ tid, (state'.relations relid).resolveUpdateRedirect (state'.overlays sid relid) tid =
        (state.relations relid).resolveUpdateRedirect (state.overlays sid relid) tid := by
  have stack := (reaches_shared reached relid).levels sid
  have orderly := reaches_orderly reached relid sid
  cases taken
  rcases state.subxactCommit_localView sid relid with same | ⟨child, parent, outer, levels, merged⟩
  · have relation := congrArg Local.relation same
    have overlays := congrArg Local.overlays same
    simp only [StorageState.localView] at relation overlays
    rw [same, relation, overlays]
    exact ⟨⟨fun _ => rfl, fun _ _ => rfl, rfl, fun _ => rfl⟩, fun _ => rfl, fun _ => rfl⟩
  · have fits := mergeable child parent outer levels
    change StackSound _ (state.overlays sid relid) at stack
    change Overlays.Orderly (state.overlays sid relid) at orderly
    rw [levels] at stack orderly
    have merges := appendFrom_merges fits.empty fits.struck stack orderly
    have apart : ∀ tid, child.insertedCid tid = none ∨ parent.insertedCid tid = none := by
      intro tid
      by_cases own : tid ∈ child.insertedTids
      · have missing := orderly.apartRows fits.empty own
        exact .inr (by simpa [mem_insertedTids] using missing)
      · exact .inl (by simpa [mem_insertedTids] using own)
    have alike := fits.alike merges apart
    have relation := congrArg Local.relation merged
    have overlays := congrArg Local.overlays merged
    simp only [StorageState.localView] at relation overlays
    rw [merged, relation, overlays, StorageState.localView, levels]
    exact ⟨fits.sight merges apart, fun tid => by rw [alike.resolveTidRedirect],
      fun tid => by rw [alike.resolveUpdateRedirect]⟩

/-- A row inserted in a transaction, and a committed row updated in a savepoint. -/
def nestedUpdate : List Event :=
  [⟨1, .insert 7 [] .skip none false⟩, ⟨1, .xactCommit⟩, ⟨1, .xactBegin⟩,
    ⟨1, .insert 7 [] .skip (some ⟨5, 1⟩) false⟩, ⟨1, .subxactBegin⟩,
    ⟨1, .update 7 ⟨0, 1⟩ [] .skip true (some ⟨5, 2, 5, 2, 0⟩)⟩]

theorem release_keeps_nestedUpdate : ∃ state state',
    run (step bareCatalog) .initial nestedUpdate = some state ∧
      step bareCatalog state ⟨1, .subxactCommit⟩ = some state' ∧
      SameSight (state.localView 1 7) (state'.localView 1 7) := by
  obtain ⟨state, ran⟩ : ∃ state, run (step bareCatalog) .initial nestedUpdate = some state :=
    ⟨_, rfl⟩
  obtain ⟨state', taken⟩ : ∃ state', step bareCatalog state ⟨1, .subxactCommit⟩ = some state' :=
    ⟨_, rfl⟩
  obtain ⟨reached, -⟩ := reaches_of_checked [1] (by decide) ran
  have plain : (state.relations 7).hotRedirects = [] := by
    cases ran
    decide
  have fields : (state.overlays 1 7).map (fun level =>
      (level.cleared, level.invalidatedTids, level.hotRedirectInserts,
        level.primaryKeyInserts.isEmpty && level.primaryKeyDeletes.isEmpty)) =
      [(false, [⟨0, 1⟩], [(⟨0, 1⟩, ⟨0, 3⟩)], true), (false, [], [], true)] := by
    cases ran
    decide
  refine ⟨state, state', ran, taken, (release_keeps_sight reached taken ?_).1⟩
  intro child parent outer levels
  rw [levels] at fields
  simp only [List.map_cons, List.cons.injEq, Prod.mk.injEq, List.map_eq_nil_iff, Bool.and_eq_true,
    List.isEmpty_iff] at fields
  obtain ⟨⟨inside, -, redirects, keys, deletes⟩, ⟨outside, struck, redirects', -⟩, rfl⟩ := fields
  have next : (state.relations 7).hotNext [child, parent] = lookup [(⟨0, 1⟩, ⟨0, 3⟩)] := by
    funext tid
    have own : tidRedirect [child, parent] tid = lookup [(⟨0, 1⟩, ⟨0, 3⟩)] tid := by
      rw [tidRedirect, List.findSome?_cons, redirects, List.findSome?_cons, redirects']
      cases lookup [((⟨0, 1⟩ : Tid), (⟨0, 3⟩ : Tid))] tid <;> rfl
    simp only [hotNext, orElse, own, plain, lookup_nil, or_none]
  refine ⟨by simp [inside], by simp [struck], by simp [outside], by simp [keys, deletes], ?_⟩
  intro tid
  rw [next]
  by_cases updated : tid = ⟨0, 1⟩
  · subst updated
    have two : Ends (lookup [((⟨0, 1⟩ : Tid), (⟨0, 3⟩ : Tid))]) 1 ⟨0, 1⟩ ⟨0, 3⟩ :=
      .hop rfl (.stop rfl)
    exact ⟨_, two.mono (by simp [maxHotRedirectHops])⟩
  · exact ⟨tid, .stop (by simp [lookup_cons, Ne.symm updated])⟩

/-- A row is deleted; in a savepoint the relation is cleared and a row inserted,
    which takes the tid of the deleted one. -/
def clearedInSavepoint : List Event :=
  [⟨1, .insert 7 [] .skip none false⟩, ⟨1, .xactCommit⟩, ⟨1, .xactBegin⟩,
    ⟨1, .delete 7 ⟨0, 1⟩ false⟩, ⟨1, .recordInvalidateMetadata 7 ⟨0, 1⟩ 5 1⟩, ⟨1, .subxactBegin⟩,
    ⟨1, .clear 7⟩, ⟨1, .insert 7 [] .skip (some ⟨5, 2⟩) false⟩]

/-- The new row is hidden by the old deletion until the release. -/
theorem release_shows_row : ∃ state state',
    Reaches (step bareCatalog) RespectsClears .initial state ∧
      run (step bareCatalog) .initial clearedInSavepoint = some state ∧
      step bareCatalog state ⟨1, .subxactCommit⟩ = some state' ∧
      ((state.relations 7).fetchTid (state.overlays 1 7) ⟨0, 1⟩).2 = none ∧
      ((state'.relations 7).fetchTid (state'.overlays 1 7) ⟨0, 1⟩).2 = encodeTuple [] ∧
      (state.relations 7).visibleTids (state.overlays 1 7) = [] ∧
      (state'.relations 7).visibleTids (state'.overlays 1 7) = [⟨0, 1⟩] := by
  obtain ⟨state, ran⟩ : ∃ state, run (step bareCatalog) .initial clearedInSavepoint = some state :=
    ⟨_, rfl⟩
  obtain ⟨reached, -⟩ := reaches_of_checked [1] (by decide) ran
  refine ⟨state, _, reached, ran, rfl, ?_, ?_, ?_, ?_⟩ <;>
  · cases ran
    decide

end FastPg.Storage
