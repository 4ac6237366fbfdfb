import FastPg.Storage.Edits

/-! # Row operations are made of edits

One inversion per operation of a session: whatever it is called with, it is a
sequence of edits. Lookups only compress redirects; an update or delete
resolves its tid first and goes on from what the session sees there.
-/

namespace FastPg.Storage

open Assoc Redirect RelationStorage Overlays Option

namespace Local

variable {catalog : RelationCatalog} {may : Local → Tid → Prop} {here here' : Local}

/-! ## Lookups under the write lock -/

variable {tid : Tid} {tuple : Bytes} {overlays : Overlays} (input : RowInput)

theorem resolveForWrite_compresses (tid : Tid) : Compresses here (here.resolveForWrite tid).1 :=
  .tail (.single (.update here here.resolving tid resolves_resolving))
    (.hot _ here.resolving _ resolves_resolving)

theorem visibleEntryCompress_compress (tid : Tid) :
    Compress here { here with
      relation := (here.relation.visibleEntryCompress here.overlays tid).1 } :=
  .hot here here.overlays tid (.inl rfl)

theorem primaryKeyLookupCompressFrom_compresses (key : IndexKey) (levels : Overlays) :
    Compresses here { here with
      relation := (primaryKeyLookupCompressFrom here.overlays key levels
        here.relation).1 } := by
  induction levels generalizing here with
  | nil =>
    unfold primaryKeyLookupCompressFrom
    split
    · exact .refl
    · exact .single (visibleEntryCompress_compress _)
  | cons overlay rest ih =>
    unfold primaryKeyLookupCompressFrom
    cases entry : lookup overlay.primaryKeyInserts key with
    | none =>
      dsimp only
      split
      · exact .refl
      · exact ih
    | some tid =>
      have first : Compress here _ := visibleEntryCompress_compress tid
      dsimp only
      split
      · exact .single first
      · split
        · exact .single first
        · exact Relation.ReflTransGen.trans (.single first) ih

theorem primaryKeyLookup_compresses (key : IndexKey) :
    Compresses here { here with
      relation := (here.relation.primaryKeyLookup here.overlays key).1 } := by
  unfold primaryKeyLookup
  split
  · exact primaryKeyLookupCompressFrom_compresses key here.overlays
  · rename_i unchanged
    unfold committedEntryCompress
    split
    · exact .refl
    · exact .single (.hot here [] _ (.inr ⟨rfl, by simpa using unchanged⟩))

theorem findVisibleByIndexKeyExcluding_compresses (spec : UniqueIndexSpec) (key : IndexKey)
    (replacing : Option Tid) :
    Compresses here { here with
      relation := (here.relation.findVisibleByIndexKeyExcluding here.overlays spec key
        replacing).1 } := by
  unfold findVisibleByIndexKeyExcluding
  cases replacing with
  | none =>
    dsimp only
    split
    · exact primaryKeyLookup_compresses key
    · exact .refl
  | some tid =>
    have first : Compress here { here with
      relation := (here.relation.resolveTidRedirectCompress here.overlays tid).1 } :=
      .hot here here.overlays tid (.inl rfl)
    dsimp only
    split
    · exact .trans (.single first) (primaryKeyLookup_compresses key)
    · exact .single first

theorem uniqueIndexConflictForInput_compresses (replacing : Option Tid)
    (specs : List UniqueIndexSpec) :
    Compresses here { here with
      relation := (uniqueIndexConflictForInput here.overlays input replacing specs
        here.relation).1 } := by
  induction specs generalizing here with
  | nil => exact .refl
  | cons spec rest ih =>
    unfold uniqueIndexConflictForInput
    split
    · exact ih
    · rename_i key _
      have first : Compresses here _ :=
        findVisibleByIndexKeyExcluding_compresses spec key replacing
      dsimp only
      split
      · exact first
      · exact first.trans ih

/-- What an update replaces is the same after further lookups. -/
theorem Compresses.oldTuple (compressed : Compresses here here') (old : Tid) :
    here'.oldTuple old = here.oldTuple old := by
  obtain ⟨same, levels⟩ := compressed.same
  have slices : here'.relation.tupleSlice = here.relation.tupleSlice := by
    funext tid includePending
    rw [tupleSlice_eq, tupleSlice_eq, same.row]
  have seen : here'.relation.physicalVisibleTupleSlice = here.relation.physicalVisibleTupleSlice := by
    unfold physicalVisibleTupleSlice readOverlay
    rw [slices]
  unfold Local.oldTuple physicalVisibleTupleSliceForSession
  rw [seen, slices, levels]

/-! ## Writing rows -/

/-- What a row operation does: edits, and where it returns a tid, that tid was
    appended after lookups alone and moves followed. -/
structure Outcome (catalog : RelationCatalog) (may : Local → Tid → Prop) (here : Local)
    (result : Local × Option Tid) : Prop where
  edits : EditsWith catalog may here result.1
  handed : StackSound here.relation here.overlays → ∀ tid, result.2 = some tid →
    ∃ looked appended tuple, Compresses here looked ∧
      looked.appendPendingTuple catalog tuple = (appended, some tid) ∧
      Moves catalog appended result.1

theorem Outcome.refused (edits : EditsWith catalog may here here') :
    Outcome catalog may here (here', none) :=
  ⟨edits, fun _ _ returned => by cases returned⟩

theorem Outcome.after {result : Local × Option Tid} (compressed : Compresses here here')
    (outcome : Outcome catalog may here' result) : Outcome catalog may here result := by
  refine ⟨Relation.ReflTransGen.trans compressed.edits outcome.edits, fun stack tid returned => ?_⟩
  have moves : Moves catalog here here' := compressed.moves
  obtain ⟨looked, appended, tuple, resolved, rest⟩ :=
    outcome.handed (moves.writes stack).stack tid returned
  exact ⟨looked, appended, tuple, compressed.trans resolved, rest⟩

theorem Outcome.followed {here'' : Local} {result : Option Tid}
    (outcome : Outcome catalog may here (here', result)) (edits : EditsWith catalog may here' here'') :
    Outcome catalog may here (here'', result) := by
  refine ⟨outcome.edits.trans edits, fun stack tid returned => ?_⟩
  obtain ⟨looked, appended, tuple, resolved, placed, moves⟩ := outcome.handed stack tid returned
  exact ⟨looked, appended, tuple, resolved, placed,
    moves.trans (edits.moves (outcome.edits.writes stack).stack)⟩

theorem Outcome.append {result : Option Tid} (encoded : Encoded tuple)
    (appended : here.appendPendingTuple catalog tuple = (here', result)) :
    Outcome catalog may here (here', result) :=
  ⟨.single (.append encoded appended), fun _ _ returned =>
    ⟨here, here', tuple, .refl, returned ▸ appended, .refl⟩⟩

theorem insert_outcome (check : UniqueCheck) (metadata : Option InsertMetadata) (keyed : Bool) :
    Outcome catalog may here (here.insert catalog input check metadata keyed) := by
  unfold insert
  split
  · exact .refused .refl
  · split
    · exact .refused .refl
    · rename_i tuple encoded
      split
      · rename_i appended
        exact .append ⟨input, encoded⟩ appended
      · rename_i here₁ tid appended
        have stamped : Outcome catalog may here (here₁.stampInsert tid metadata, some tid) := by
          refine .followed (.append ⟨input, encoded⟩ appended) ?_
          cases metadata with
          | none => exact .refl
          | some metadata =>
            obtain ⟨top, outer, levels, inserted⟩ := appendPendingTuple_inserted appended
            refine .single (.stampInsert here₁ tid _ _ fun top' mem => ?_)
            rw [levels, List.head?_cons, mem_some_iff] at mem
            exact mem ▸ inserted
        dsimp only
        split
        · split
          · exact stamped.followed (.single (.note _ _
              (fun _ => ⟨⟨rfl, rfl, rfl, rfl, rfl, rfl, rfl⟩, rfl⟩)
              fun _ _ tidy => tidy.insertPrimaryKey _ _))
          · exact stamped
        · exact stamped

/-- The innermost level after a row was replaced. -/
theorem replaceRow_top {relation : RelationStorage} {top : RelationOverlay} {outer : Overlays}
    {old new : Tid} (own : new ∈ top.insertedTids) (hot : Bool) :
    ∃ top', replaceRow ⟨relation, top :: outer⟩ old new hot = ⟨relation, top' :: outer⟩ ∧
      old ∈ top'.invalidatedTids ∧ new ∈ top'.insertedTids := by
  obtain ⟨struck, mine⟩ := insertUpdateRedirect_kept top old own
  cases hot with
  | false => exact ⟨_, rfl, struck, mine⟩
  | true =>
    have kept := insertHotRedirect_kept ((top.invalidate old).insertUpdateRedirect old new) old new
    exact ⟨_, rfl, kept.1 ▸ struck, kept.2 ▸ mine⟩

/-- A new version that was put in place of a row the session sees. -/
theorem recordUpdate_outcome {old new : Tid} (encoded : Encoded tuple)
    (visible : (here.oldTuple old).isSome)
    (appended : here.appendPendingTuple catalog tuple = (here', some new)) (hot : Bool)
    (metadata : Option UpdateMetadata) :
    Outcome catalog may here (here'.recordUpdate old new hot metadata, some new) := by
  obtain ⟨top, outer, levels, inserted⟩ := appendPendingTuple_inserted appended
  obtain ⟨relation, overlays⟩ := here'
  dsimp only at levels
  subst levels
  have replaced : Outcome catalog may here (replaceRow ⟨relation, top :: outer⟩ old new hot, some new) := by
    refine ⟨.single (.replace hot encoded visible appended), fun stack tid returned => ?_⟩
    cases returned
    obtain ⟨_, found⟩ := isSome_iff_exists.mp visible
    have writes := appendPendingTuple_writes stack appended
    exact ⟨here, _, tuple, .refl, appended,
      replaceRow_moves (writes.stored (stored_of_oldTuple found)) inserted writes.stack hot⟩
  obtain ⟨top', outcome, struck, mine⟩ := @replaceRow_top relation top outer old new inserted hot
  cases metadata with
  | none => exact replaced
  | some metadata =>
    have recorded : recordUpdate ⟨relation, top :: outer⟩ old new hot (some metadata) =
        (((replaceRow ⟨relation, top :: outer⟩ old new hot).modifyTop fun top =>
          top.setInvalidateMetadata old metadata.deleteXid metadata.deleteCid).setInsertMetadata
            new metadata.insertXid metadata.insertCid).setRowXmax new metadata.rowXmax := rfl
    rw [outcome] at recorded replaced
    rw [recorded]
    have stamped : EditWith catalog may ⟨relation, top' :: outer⟩
        (modifyTop ⟨relation, top' :: outer⟩ fun top =>
          top.setInvalidateMetadata old metadata.deleteXid metadata.deleteCid) :=
      .note _ _ (fun _ => ⟨⟨rfl, rfl, rfl, rfl, rfl, rfl, rfl⟩, rfl⟩) fun top mem tidy => by
        cases mem
        exact tidy.setInvalidateMetadata struck _ _
    refine replaced.followed (.tail (.tail (.single stamped) (.stampInsert _ _ _ _ ?_))
      (.stampXmax _ _ _))
    intro top mem
    cases mem
    exact mine

theorem recordKeyChange_edit (oldKey newKey : Option IndexKey) (ownInsert : Bool) (newTid : Tid) :
    EditWith catalog may here (here.recordKeyChange oldKey newKey ownInsert newTid) := by
  have dropped : ∀ (top : RelationOverlay) (old : IndexKey),
      SameVersions (if some old = newKey then top
        else if ownInsert then top.removePrimaryKeyInsert old
        else top.deletePrimaryKey old) top ∧
      (top.Tidy → (if some old = newKey then top
        else if ownInsert then top.removePrimaryKeyInsert old
        else top.deletePrimaryKey old).Tidy) := by
    intro top old
    split
    · exact ⟨.refl, id⟩
    · split
      · exact ⟨⟨⟨rfl, rfl, rfl, rfl, rfl, rfl, rfl⟩, rfl⟩, fun tidy => tidy.removePrimaryKeyInsert old⟩
      · exact ⟨⟨⟨rfl, rfl, rfl, rfl, rfl, rfl, rfl⟩, rfl⟩, fun tidy => tidy.deletePrimaryKey old⟩
  have entered : ∀ (top : RelationOverlay) (key : IndexKey),
      SameVersions (top.insertPrimaryKey key newTid) top :=
    fun _ _ => ⟨⟨rfl, rfl, rfl, rfl, rfl, rfl, rfl⟩, rfl⟩
  refine .note here _ (fun top => ?_) fun top _ tidy => ?_
  · cases oldKey with
    | none =>
      cases newKey with
      | none => exact .refl
      | some key => exact entered top key
    | some old =>
      have same := (dropped top old).1
      cases newKey with
      | none => exact same
      | some key => exact (entered _ key).trans same
  · cases oldKey with
    | none =>
      cases newKey with
      | none => exact tidy
      | some key => exact tidy.insertPrimaryKey key newTid
    | some old =>
      have kept := (dropped top old).2 tidy
      cases newKey with
      | none => exact kept
      | some key => exact kept.insertPrimaryKey key newTid

/-! ## Updates and deletes -/

theorem hasVisibilityDeltas_of_own (own : ownInsertedTid overlays tid = true) :
    hasVisibilityDeltas overlays = true := by
  induction overlays with
  | nil => cases own
  | cons overlay outer ih =>
    unfold ownInsertedTid at own
    unfold hasVisibilityDeltas
    rw [List.any_cons, Bool.or_eq_true]
    split at own
    · rename_i mine
      left
      simp [RelationOverlay.hasVisibilityDeltas, List.ne_nil_of_mem mine]
    · split at own
      · cases own
      · exact .inr (ih own)

theorem ownInsertedTid_not_clear (own : ownInsertedTid overlays tid = true) :
    clearTid overlays tid = false := by
  induction overlays with
  | nil => rfl
  | cons overlay outer ih =>
    unfold ownInsertedTid at own
    unfold clearTid
    by_cases mine : tid ∈ overlay.insertedTids
    · rw [if_pos mine]
    · rw [if_neg mine] at own ⊢
      split at own
      · cases own
      · rename_i uncleared
        rw [if_neg uncleared]
        exact ih own

theorem oldTuple_of_pending (own : ownInsertedTid here.overlays tid = true)
    (kept : invalidateTid here.overlays tid = false)
    (paged : (pendingTupleSlice here.overlays tid).isSome) :
    (here.oldTuple tid).isSome := by
  have deltas : hasVisibilityDeltas here.overlays = true :=
    hasVisibilityDeltas_of_own own
  unfold oldTuple physicalVisibleTupleSliceForSession
  rw [if_pos deltas, physicalVisibleTupleSlice_eq, kept,
    ownInsertedTid_not_clear own, own]
  obtain ⟨tuple, found⟩ := isSome_iff_exists.mp paged
  simp [found]

/-- An own page that takes the tuple is where it goes. -/
theorem appendPendingTuple_own {relation : RelationStorage} {top top' : RelationOverlay}
    {outer : Overlays}
    (appended : top.appendPendingTupleToExistingPage tuple relation.maxTuplesPerBlock =
      (top', some tid)) :
    appendPendingTuple ⟨relation, top :: outer⟩ catalog tuple =
      (⟨relation, top'.insertTid tid :: outer⟩, some tid) := by
  simp [appendPendingTuple, ensureTransaction, appendTop, appended]

theorem updatePendingHot_outcome {oldTid newTid : Tid} {hot : Bool}
    {metadata : Option UpdateMetadata} (encoded : Encoded tuple)
    (h : here.updatePendingHot oldTid tuple hot metadata = some (here', newTid)) :
    Outcome catalog may here (here', some newTid) := by
  unfold updatePendingHot at h
  dsimp only at h
  generalize Redirect.follow (updateRedirect here.overlays) maxHotRedirectHops oldTid = old at h
  split at h
  · cases h
  · rename_i readable
    simp only [Bool.or_eq_true, Bool.not_eq_true', not_or, Bool.not_eq_false, Bool.not_eq_true,
      isNone_eq_false_iff] at readable
    have visible := oldTuple_of_pending readable.1.1 readable.1.2 readable.2
    obtain ⟨relation, overlays⟩ := here
    cases overlays with
    | nil => cases h
    | cons top outer =>
      cases appended : top.appendPendingTupleToExistingPage tuple relation.maxTuplesPerBlock with
      | mk top' result =>
        simp only [appended] at h
        cases result with
        | none => cases h
        | some new =>
          cases h
          exact recordUpdate_outcome encoded visible (appendPendingTuple_own appended) hot metadata

theorem updateResolved_outcome {oldTid : Tid} (visible : (here.oldTuple oldTid).isSome)
    (input : RowInput) (oldTuple : Bytes) (hot keyless : Bool) (metadata : Option UpdateMetadata) :
    Outcome catalog may here
      (here.updateResolved catalog oldTid input oldTuple hot keyless metadata) := by
  unfold updateResolved
  dsimp only
  split
  · exact .refused .refl
  · rename_i tuple encoded
    split
    · rename_i appended
      exact .append ⟨input, encoded⟩ appended
    · rename_i here₁ newTid appended
      exact (recordUpdate_outcome ⟨input, encoded⟩ visible appended hot metadata).followed
        (.single (recordKeyChange_edit _ _ _ _))

theorem updateGeneral_outcome (tid : Tid) (input : RowInput) (check : UniqueCheck) (hot : Bool)
    (metadata : Option UpdateMetadata) :
    Outcome catalog may here (here.updateGeneral catalog tid input check hot metadata) := by
  have first : Compresses here (here.resolveForWrite tid).1 := resolveForWrite_compresses tid
  unfold updateGeneral
  generalize here.resolveForWrite tid = resolved at first ⊢
  obtain ⟨here₁, oldTid⟩ := resolved
  dsimp only at first ⊢
  split
  · exact .refused first.edits
  · rename_i oldTuple found
    split
    · exact .refused first.edits
    · have checked : Compresses here₁ { here₁ with
          relation := (if check = .enforce then
            uniqueIndexConflictForInput here₁.overlays input (some oldTid)
              catalog.uniqueIndexSpecs here₁.relation
          else (here₁.relation, none)).1 } := by
        split
        · exact uniqueIndexConflictForInput_compresses _ _ _
        · exact .refl
      generalize (if check = .enforce then
          uniqueIndexConflictForInput here₁.overlays input (some oldTid)
            catalog.uniqueIndexSpecs here₁.relation
        else (here₁.relation, none)) = outcome at checked ⊢
      obtain ⟨relation, conflict⟩ := outcome
      dsimp only at checked ⊢
      have looked : Compresses here { here₁ with relation := relation } := first.trans checked
      split
      · exact .refused looked.edits
      · refine .after looked (updateResolved_outcome ?_ _ _ _ _ _)
        rw [checked.oldTuple, found]
        rfl

theorem update_outcome (tid : Tid) (input : RowInput) (check : UniqueCheck) (hot : Bool)
    (metadata : Option UpdateMetadata) :
    Outcome catalog may here (here.update catalog tid input check hot metadata) := by
  have general : Outcome catalog may here _ := updateGeneral_outcome tid input check hot metadata
  unfold update
  split
  · split
    · exact .refused .refl
    · rename_i encoded
      split
      · rename_i updated
        exact updatePendingHot_outcome ⟨input, encoded⟩ updated
      · exact general
  · exact general

theorem updateHotIfPreservedGeneral_outcome (tid : Tid) (input : RowInput) (key : SingleByvalHotKey)
    (metadata : Option UpdateMetadata) :
    Outcome catalog may here
      ((here.updateHotIfPreservedGeneral catalog tid input key metadata).map id
        (Option.map Prod.fst)) := by
  have first : Compresses here (here.resolveForWrite tid).1 := resolveForWrite_compresses tid
  unfold updateHotIfPreservedGeneral
  generalize here.resolveForWrite tid = resolved at first ⊢
  obtain ⟨here₁, oldTid⟩ := resolved
  dsimp only at first ⊢
  split
  · exact .refused first.edits
  · rename_i oldTuple found
    split
    · exact .refused first.edits
    · simp only [Prod.map, id, map_map, Function.comp_def, map_id_fun']
      exact .after first (updateResolved_outcome (by rw [found]; rfl) _ _ _ _ _)

theorem updateHotIfPreserved_outcome (tid : Tid) (input : RowInput) (key : SingleByvalHotKey)
    (metadata : Option UpdateMetadata) :
    Outcome catalog may here ((here.updateHotIfPreserved catalog tid input key metadata).map id
      (Option.map Prod.fst)) := by
  unfold updateHotIfPreserved
  split
  · exact .refused .refl
  · dsimp only
    split
    · split
      · exact .refused .refl
      · rename_i encoded
        split
        · rename_i updated
          exact updatePendingHot_outcome ⟨input, encoded⟩ updated
        · exact updateHotIfPreservedGeneral_outcome _ input key metadata
    · exact updateHotIfPreservedGeneral_outcome _ input key metadata

theorem delete_edits (tid : Tid) (keyed : Bool) (allowed : may here tid) :
    EditsWith catalog may here (here.delete catalog tid keyed).1 := by
  have first : Compresses here (here.resolveForWrite tid).1 := resolveForWrite_compresses tid
  unfold delete
  dsimp only
  split
  · exact first.edits
  · rename_i values found
    have struck : EditWith catalog may here _ := .strike allowed (isSome_iff_exists.mpr ⟨values, found⟩)
    split
    · refine .tail (.single struck) (.note _ _ (fun top => ?_) fun top _ tidy => ?_)
      · split <;> exact ⟨⟨rfl, rfl, rfl, rfl, rfl, rfl, rfl⟩, rfl⟩
      · split
        · exact tidy.removePrimaryKeyInsert _
        · exact tidy.deletePrimaryKey _
    · exact .single struck

/-! ## Entries -/

theorem recordInvalidateMetadata_edit (tid : Tid) (xid cid : Nat) :
    EditWith catalog may here (here.recordInvalidateMetadata tid xid cid) := by
  refine .note here _ (fun top => ?_) fun top _ tidy => ?_
  · split <;> exact ⟨⟨rfl, rfl, rfl, rfl, rfl, rfl, rfl⟩, rfl⟩
  · split
    · rename_i struck
      exact tidy.setInvalidateMetadata struck xid cid
    · exact tidy

theorem recordPrimaryKeyEntry_edits (key : IndexKey) (tid : Tid) :
    EditsWith catalog may here (here.recordPrimaryKeyEntry key tid) :=
  .tail (.single (.start here)) (.note _ _ (fun _ => ⟨⟨rfl, rfl, rfl, rfl, rfl, rfl, rfl⟩, rfl⟩)
    fun _ _ tidy => tidy.insertPrimaryKey key tid)

theorem recordPrimaryKey_edits (tid : Tid) :
    EditsWith catalog may here (here.recordPrimaryKey catalog tid) := by
  unfold recordPrimaryKey
  split
  · exact .refl
  · split
    · exact recordPrimaryKeyEntry_edits _ tid
    · exact .refl

theorem recordIndexEntries_edits (indexRelid : Nat) (prefixes : List IndexKey) (tid : Tid) :
    EditsWith catalog may here (here.recordIndexEntries indexRelid prefixes tid) := by
  have noted : ∀ top : RelationOverlay,
      SameVersions (prefixes.foldl (fun top key => top.insertIndexEntry indexRelid key tid) top) top ∧
        (top.Tidy →
          (prefixes.foldl (fun top key => top.insertIndexEntry indexRelid key tid) top).Tidy) := by
    induction prefixes with
    | nil => exact fun top => ⟨.refl, id⟩
    | cons key rest ih =>
      intro top
      have tail := ih (top.insertIndexEntry indexRelid key tid)
      exact ⟨tail.1.trans ⟨⟨rfl, rfl, rfl, rfl, rfl, rfl, rfl⟩, rfl⟩,
        fun tidy => tail.2 (tidy.insertIndexEntry indexRelid key tid)⟩
  exact .tail (.single (.start here))
    (.note _ _ (fun top => (noted top).1) fun top _ => (noted top).2)

end Local

end FastPg.Storage
