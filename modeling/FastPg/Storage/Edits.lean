import FastPg.Storage.Moves

/-! # Row operations as edits

A coarser cut of the row operations than their moves. A lookup under the write
lock only compresses redirects. A new version of a row comes with the
invalidation of the old one and the redirect between them, and nothing is
replaced or struck that the session did not see. Every edit is made of moves.
-/

namespace FastPg.Storage

open Assoc Redirect RelationStorage RelationOverlay Overlays Option

/-- The bytes of a row that was written. -/
def Encoded (tuple : Bytes) : Prop := ∃ input, encodeTuple input = some tuple

/-- Two levels that agree on everything rows and their versions depend on. -/
structure SameVersions (a b : RelationOverlay) : Prop extends SameRows a b where
  updateRedirectInserts : a.updateRedirectInserts = b.updateRedirectInserts

variable {a : RelationOverlay}

theorem SameVersions.refl : SameVersions a a := ⟨.refl, rfl⟩

theorem SameVersions.trans {b c : RelationOverlay} (first : SameVersions a b)
    (second : SameVersions b c) : SameVersions a c :=
  ⟨first.toSameRows.trans second.toSameRows,
    first.updateRedirectInserts.trans second.updateRedirectInserts⟩

namespace Local

/-- Put `new` in the place of `old` in the innermost level. -/
def replaceRow (here : Local) (old new : Tid) (hot : Bool) : Local :=
  here.modifyTop fun top =>
    let top := (top.invalidate old).insertUpdateRedirect old new
    if hot then top.insertHotRedirect old new else top

/-- A lookup that compresses the chain it followed. -/
inductive Compress : Local → Local → Prop where
  | hot (here : Local) (levels : Overlays) (tid : Tid) (resolves : here.Resolves levels) :
      Compress here { here with
        relation := (here.relation.resolveTidRedirectCompress levels tid).1 }
  | update (here : Local) (levels : Overlays) (tid : Tid) (resolves : here.Resolves levels) :
      Compress here { here with
        relation := (here.relation.resolveUpdateRedirectCompress levels tid).1 }

abbrev Compresses : Local → Local → Prop := Relation.ReflTransGen Compress

/-- The edits a row operation is made of, where `may` says which rows it may strike in which
state. -/
inductive EditWith (catalog : RelationCatalog) (may : Local → Tid → Prop) : Local → Local → Prop where
  | start (here : Local) : EditWith catalog may here here.ensureTransaction
  | compress {here here' : Local} (compressed : Compress here here') : EditWith catalog may here here'
  | limit (here : Local) (maxTuples : Nat) :
      EditWith catalog may here { here with relation := here.relation.setMaxTuplesPerBlock maxTuples }
  | append {here here' : Local} {tuple : Bytes} {result : Option Tid} (encoded : Encoded tuple)
      (appended : here.appendPendingTuple catalog tuple = (here', result)) : EditWith catalog may here here'
  | replace {here here' : Local} {tuple : Bytes} {old new : Tid} (hot : Bool)
      (encoded : Encoded tuple) (visible : (here.oldTuple old).isSome)
      (appended : here.appendPendingTuple catalog tuple = (here', some new)) :
      EditWith catalog may here (here'.replaceRow old new hot)
  | strike {here : Local} {tid : Tid} (allowed : may here tid)
      (visible : ((here.resolveForWrite tid).1.relation.findVisibleTuple here.overlays
        (here.resolveForWrite tid).2).isSome) :
      EditWith catalog may here ((here.resolveForWrite tid).1.ensureTransaction.modifyTop fun top =>
        top.invalidate (here.resolveForWrite tid).2)
  | stampInsert (here : Local) (tid : Tid) (xid cid : Nat)
      (own : ∀ top ∈ here.overlays.head?, tid ∈ top.insertedTids) :
      EditWith catalog may here (here.setInsertMetadata tid xid cid)
  | stampXmax (here : Local) (tid : Tid) (xmax : Nat) :
      EditWith catalog may here (here.setRowXmax tid xmax)
  | note (here : Local) (f : RelationOverlay → RelationOverlay)
      (same : ∀ top, SameVersions (f top) top)
      (tidy : ∀ top ∈ here.overlays.head?, top.Tidy → (f top).Tidy) :
      EditWith catalog may here (here.modifyTop f)

abbrev Edit (catalog : RelationCatalog) : Local → Local → Prop :=
  EditWith catalog fun _ _ => True

abbrev EditsWith (catalog : RelationCatalog) (may : Local → Tid → Prop) : Local → Local → Prop :=
  Relation.ReflTransGen (EditWith catalog may)

abbrev Edits (catalog : RelationCatalog) : Local → Local → Prop :=
  EditsWith catalog fun _ _ => True

end Local

/-! ## What a session can read is stored -/

variable {relation : RelationStorage} {tid : Tid} {tuple : Bytes} {entry : LinePointerState × Bytes}
  {overlay : RelationOverlay} {overlays : Overlays}

theorem RelationStorage.row_isSome_of_tupleSlice {includePending : Bool}
    (found : relation.tupleSlice tid includePending = some tuple) : (relation.row tid).isSome := by
  rw [tupleSlice_eq] at found
  cases stored : relation.row tid with
  | none => simp [stored] at found
  | some entry => rfl

theorem RelationStorage.offset_pos_of_row (found : relation.row tid = some entry) :
    0 < tid.offset := by
  obtain ⟨page, -, row⟩ := bind_eq_some_iff.mp found
  exact Page.offset_pos_of_row (isSome_of_eq_some row)

theorem RelationOverlay.offset_pos_of_pendingRow (found : overlay.pendingRow tid = some entry) :
    0 < tid.offset := by
  obtain ⟨page, -, row⟩ := bind_eq_some_iff.mp found
  exact Page.offset_pos_of_row (isSome_of_eq_some row)

theorem RelationOverlay.mem_blocks_of_pendingTupleSlice
    (found : overlay.pendingTupleSlice tid = some tuple) :
    tid.block ∈ overlay.blocks := by
  rw [pendingTupleSlice_eq] at found
  cases stored : overlay.pendingRow tid with
  | none => simp [stored] at found
  | some entry => exact mem_blocks_of_pendingRow stored

/-- An own tuple is in the own pages of a level. -/
theorem Overlays.level_of_pendingTupleSlice
    (found : pendingTupleSlice overlays tid = some tuple) :
    ∃ overlay ∈ overlays, overlay.pendingTupleSlice tid = some tuple := by
  induction overlays with
  | nil => cases found
  | cons overlay outer ih =>
    unfold pendingTupleSlice at found
    cases own : overlay.pendingTupleSlice tid with
    | some pending =>
      rw [own] at found
      cases found
      exact ⟨overlay, .head _, own⟩
    | none =>
      simp only [own] at found
      split at found
      · cases found
      · obtain ⟨level, mem, here⟩ := ih found
        exact ⟨level, .tail _ mem, here⟩

theorem Overlays.mem_blocks_of_pendingTupleSlice
    (found : pendingTupleSlice overlays tid = some tuple) :
    tid.block ∈ blocks overlays := by
  induction overlays with
  | nil => cases found
  | cons overlay outer ih =>
    unfold pendingTupleSlice at found
    cases own : overlay.pendingTupleSlice tid with
    | some tuple =>
      exact mem_blocks_cons.mpr
        (.inl (RelationOverlay.mem_blocks_of_pendingTupleSlice own))
    | none =>
      simp only [own] at found
      cases cleared : overlay.cleared with
      | true => simp [cleared] at found
      | false =>
        simp only [cleared, Bool.false_eq_true, if_false] at found
        exact mem_blocks_cons.mpr (.inr ⟨cleared, ih found⟩)

namespace Local

variable {tuple : Bytes} (top : RelationOverlay)

theorem stored_of_visible {here : Local} {tid : Tid} {tuple : Bytes}
    (found : here.relation.physicalVisibleTupleSlice here.overlays tid = some tuple) :
    here.Stored tid := by
  rw [physicalVisibleTupleSlice_stack] at found
  rcases stackTupleSlice_read found with own | ⟨includePending, stored⟩
  · exact .inr (mem_blocks_of_pendingTupleSlice own)
  · exact .inl (row_isSome_of_tupleSlice stored)

variable {catalog : RelationCatalog} {may : Local → Tid → Prop} {here here' : Local}

/-- The tuple that an update replaces is in an own page or in the relation. -/
theorem oldTuple_read {oldTid : Tid} (found : here.oldTuple oldTid = some tuple) :
    here.overlays.pendingTupleSlice oldTid = some tuple ∨
      ∃ includePending, here.relation.tupleSlice oldTid includePending = some tuple := by
  unfold oldTuple physicalVisibleTupleSliceForSession at found
  split at found
  · rw [physicalVisibleTupleSlice_stack] at found
    exact stackTupleSlice_read found
  · exact .inr ⟨false, found⟩

theorem stored_of_oldTuple {oldTid : Tid} (found : here.oldTuple oldTid = some tuple) :
    here.Stored oldTid := by
  rcases oldTuple_read found with own | ⟨includePending, stored⟩
  · exact .inr (mem_blocks_of_pendingTupleSlice own)
  · exact .inl (row_isSome_of_tupleSlice stored)

/-- A tuple is on a numbered line. -/
theorem offset_pos_of_read {relation : RelationStorage} {overlays : Overlays} {tid : Tid}
    {tuple : Bytes} (read : overlays.pendingTupleSlice tid = some tuple ∨
      ∃ includePending, relation.tupleSlice tid includePending = some tuple) : 0 < tid.offset := by
  rcases read with own | ⟨includePending, stored⟩
  · obtain ⟨overlay, -, here⟩ := level_of_pendingTupleSlice own
    rw [pendingTupleSlice_eq] at here
    obtain ⟨entry, row, -⟩ := bind_eq_some_iff.mp here
    exact offset_pos_of_pendingRow row
  · obtain ⟨entry, row⟩ := isSome_iff_exists.mp (row_isSome_of_tupleSlice stored)
    exact offset_pos_of_row row

/-! ## Edits are made of moves -/

theorem insertUpdateRedirect_sameRows (old new : Tid) :
    SameRows (top.insertUpdateRedirect old new) top := by
  unfold insertUpdateRedirect
  split <;> exact ⟨rfl, rfl, rfl, rfl, rfl, rfl, rfl⟩

theorem insertUpdateRedirect_kept (old : Tid) {new : Tid} (own : new ∈ top.insertedTids) :
    old ∈ ((top.invalidate old).insertUpdateRedirect old new).invalidatedTids ∧
      new ∈ ((top.invalidate old).insertUpdateRedirect old new).insertedTids := by
  have rows := insertUpdateRedirect_sameRows (top.invalidate old) old new
  rw [rows.invalidatedTids, rows.insertedTids]
  exact ⟨mem_pushUnique.mpr (.inr rfl), own⟩

theorem insertHotRedirect_kept (old new : Tid) :
    (top.insertHotRedirect old new).invalidatedTids = top.invalidatedTids ∧
      (top.insertHotRedirect old new).insertedTids = top.insertedTids := by
  unfold RelationOverlay.insertHotRedirect
  split <;> exact ⟨rfl, rfl⟩

theorem replaceRow_moves {relation : RelationStorage} {top : RelationOverlay} {outer : Overlays}
    {old new : Tid} (stored : Stored ⟨relation, top :: outer⟩ old) (own : new ∈ top.insertedTids)
    (stack : StackSound relation (top :: outer)) (hot : Bool) :
    Moves catalog ⟨relation, top :: outer⟩ (replaceRow ⟨relation, top :: outer⟩ old new hot) := by
  have invalidated : Move catalog ⟨relation, top :: outer⟩ ⟨relation, top.invalidate old :: outer⟩ :=
    .invalidate _ old (.inl stored)
  have noted : Move catalog ⟨relation, top.invalidate old :: outer⟩
      ⟨relation, (top.invalidate old).insertUpdateRedirect old new :: outer⟩ :=
    .note _ (fun top => top.insertUpdateRedirect old new)
      (fun top => insertUpdateRedirect_sameRows top old new)
      fun _ _ tidy => tidy.insertUpdateRedirect old new
  have before : Moves catalog ⟨relation, top :: outer⟩
      ⟨relation, (top.invalidate old).insertUpdateRedirect old new :: outer⟩ :=
    .tail (.single invalidated) noted
  obtain ⟨struck, mine⟩ := insertUpdateRedirect_kept top old own
  cases hot with
  | false => exact before
  | true => exact before.tail (.redirect ((before.writes stack).stored stored) mine struck)

theorem resolves_resolving : here.Resolves here.resolving := by
  unfold resolving
  split
  · exact .inl rfl
  · rename_i unchanged
    exact .inr ⟨rfl, by simpa using unchanged⟩

/-- A delete ends on a stored tid, or on one that redirects led to. -/
theorem reached_of_resolveForWrite {tid : Tid} {values : List DecodedDatum}
    (found : (here.resolveForWrite tid).1.relation.findVisibleTuple here.overlays
      (here.resolveForWrite tid).2 = some values) :
    (here.resolveForWrite tid).1.Reached (here.resolveForWrite tid).2 := by
  unfold resolveForWrite at found ⊢
  dsimp only at found ⊢
  generalize (here.relation.resolveUpdateRedirectCompress here.resolving tid).1 = relation at found ⊢
  generalize (here.relation.resolveUpdateRedirectCompress here.resolving tid).2 = start at found ⊢
  rcases resolveTidRedirectCompress_end relation here.resolving start with
    stays | committed | own
  · obtain ⟨same, final, ended⟩ := stays
    rw [final, same] at found ⊢
    cases redirected : tidRedirect here.overlays start with
    | some target =>
      have settled : hasVisibilityDeltas here.overlays = false := by
        cases deltas : hasVisibilityDeltas here.overlays with
        | false => rfl
        | true =>
          simp [resolving, deltas, hotNext, orElse, redirected] at ended
      exact .inr (.inr (.inr ⟨settled, by simp [redirected]⟩))
    | none =>
      have unlinked : relation.hotNext here.overlays start = none := by
        unfold hotNext orElse at ended ⊢
        rw [redirected]
        unfold resolving at ended
        split at ended
        · rwa [redirected] at ended
        · simpa [tidRedirect] using ended
      have stop : relation.resolveTidRedirect here.overlays start = start := by
        simp [resolveTidRedirect, maxHotRedirectHops, follow, unlinked]
      unfold findVisibleTuple visibleTupleSlice at found
      rw [stop, stop] at found
      cases visible : relation.physicalVisibleTupleSlice here.overlays start with
      | none => simp [visible] at found
      | some tuple => exact .inl (stored_of_visible visible)
  · exact .inr (.inl committed)
  · obtain ⟨overlay, mem, old, redirect⟩ := own
    refine .inr (.inr (.inl ⟨overlay, ?_, old, redirect⟩))
    unfold resolving at mem
    split at mem
    · exact mem
    · cases mem

theorem Reached.start {tid : Tid} (reached : here.Reached tid) :
    here.ensureTransaction.Reached tid := by
  obtain ⟨relation, overlays⟩ := here
  cases overlays with
  | cons top outer => exact reached
  | nil =>
    rcases reached with (row | paged) | committed | ⟨overlay, mem, -⟩ | ⟨-, redirect⟩
    · exact .inl (.inl row)
    · cases paged
    · exact .inr (.inl committed)
    · cases mem
    · cases redirect

/-- A delete that saw its row is made of moves. -/
theorem strike_moves {tid : Tid}
    (visible : ((here.resolveForWrite tid).1.relation.findVisibleTuple here.overlays
      (here.resolveForWrite tid).2).isSome) :
    Moves catalog here ((here.resolveForWrite tid).1.ensureTransaction.modifyTop fun top =>
      top.invalidate (here.resolveForWrite tid).2) := by
  obtain ⟨values, found⟩ := isSome_iff_exists.mp visible
  have resolved : Moves catalog here (here.resolveForWrite tid).1 :=
    .tail (.single (.compressUpdate here here.resolving tid resolves_resolving))
      (.compress _ here.resolving _ resolves_resolving)
  exact (resolved.tail (.start _)).tail
    (.invalidate _ _ (reached_of_resolveForWrite found).start)

theorem Compress.move (compressed : Compress here here') : Move catalog here here' := by
  cases compressed with
  | hot levels tid resolves => exact .compress here levels tid resolves
  | update levels tid resolves => exact .compressUpdate here levels tid resolves

theorem appended_move {result : Option Tid}
    (appended : here.appendPendingTuple catalog tuple = (here', result)) :
    Move catalog here here' := by
  have first : Move catalog here (here.appendPendingTuple catalog tuple).1 := .append here tuple
  rwa [appended] at first

theorem EditWith.moves (edit : EditWith catalog may here here')
    (stack : StackSound here.relation here.overlays) : Moves catalog here here' := by
  cases edit with
  | start => exact .single (.start here)
  | compress compressed => exact .single compressed.move
  | limit maxTuples => exact .single (.limit here maxTuples)
  | append encoded appended => exact .single (appended_move appended)
  | replace hot encoded visible appended =>
    obtain ⟨tuple, found⟩ := isSome_iff_exists.mp visible
    have writes := appendPendingTuple_writes stack appended
    obtain ⟨top, outer, levels, mem⟩ := appendPendingTuple_inserted appended
    have first := appended_move appended
    have stored := writes.stored (stored_of_oldTuple found)
    have sound := writes.stack
    rename_i middle _ _ _
    obtain ⟨relation, overlays⟩ := middle
    dsimp only at levels
    subst levels
    exact .trans (.single first) (replaceRow_moves stored mem sound hot)
  | strike _ visible => exact strike_moves visible
  | stampInsert tid xid cid own => exact .single (.stampInsert here tid xid cid own)
  | stampXmax tid xmax => exact .single (.stampXmax here tid xmax)
  | note f same tidy => exact .single (.note here f (fun top => (same top).toSameRows) tidy)

theorem EditsWith.moves (edits : EditsWith catalog may here here')
    (stack : StackSound here.relation here.overlays) : Moves catalog here here' := by
  induction edits with
  | refl => exact .refl
  | tail _ last ih => exact ih.trans (last.moves (ih.writes stack).stack)

theorem EditsWith.writes (edits : EditsWith catalog may here here')
    (stack : StackSound here.relation here.overlays) : Writes here here' :=
  (edits.moves stack).writes stack

/-! ## Compression leaves the rows -/

theorem Compresses.same (compressed : Compresses here here') :
    SameRelation here'.relation here.relation ∧ here'.overlays = here.overlays := by
  induction compressed with
  | refl => exact ⟨⟨rfl, rfl, rfl, rfl⟩, rfl⟩
  | tail _ last ih =>
    cases last with
    | hot levels tid _ =>
      exact ⟨(resolveTidRedirectCompress_same _ levels tid).trans ih.1, ih.2⟩
    | update levels tid _ =>
      exact ⟨(resolveUpdateRedirectCompress_same _ levels tid).trans ih.1, ih.2⟩

theorem Compresses.moves (compressed : Compresses here here') : Moves catalog here here' :=
  Relation.ReflTransGen.mono (fun _ _ step => Compress.move step) _ _ compressed

theorem Compresses.edits (compressed : Compresses here here') : EditsWith catalog may here here' :=
  Relation.ReflTransGen.mono (fun _ _ step => EditWith.compress step) _ _ compressed

end Local

end FastPg.Storage
