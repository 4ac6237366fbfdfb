import FastPg.Storage.Exclusive

/-! # Levels in order

Along every run the maps of each level stay tidy, and a level shares no row
with the levels outside it, as far as they use the same tids. A release merges
two levels, which keeps both.
-/

namespace FastPg.Storage

open Assoc Transition Option RelationStorage RelationOverlay Overlays
open List hiding insert lookup

/-! ## Taking in a row -/

/-- Two levels that agree on everything but pages, checkpoints and inserted rows. -/
structure SameNotes (a b : RelationOverlay) : Prop where
  insertedCids : a.insertedCids = b.insertedCids
  invalidatedTids : a.invalidatedTids = b.invalidatedTids
  invalidatedMetadata : a.invalidatedMetadata = b.invalidatedMetadata
  hotRedirectInserts : a.hotRedirectInserts = b.hotRedirectInserts
  updateRedirectInserts : a.updateRedirectInserts = b.updateRedirectInserts
  primaryKeyInserts : a.primaryKeyInserts = b.primaryKeyInserts
  clearedRelation : a.clearedRelation = b.clearedRelation

variable {a b : RelationOverlay}

theorem SameNotes.trans {c : RelationOverlay} (first : SameNotes a b) (second : SameNotes b c) :
    SameNotes a c :=
  ⟨first.1.trans second.1, first.2.trans second.2, first.3.trans second.3, first.4.trans second.4,
    first.5.trans second.5, first.6.trans second.6, first.7.trans second.7⟩

theorem RelationOverlay.Tidy.notes (tidy : b.Tidy) (same : SameNotes a b)
    (kept : ∀ tid ∈ b.insertedTids, tid ∈ a.insertedTids) : a.Tidy where
  insertedCids := same.insertedCids ▸ tidy.insertedCids
  invalidatedMetadata := same.invalidatedMetadata ▸ tidy.invalidatedMetadata
  hotRedirectInserts := same.hotRedirectInserts ▸ tidy.hotRedirectInserts
  updateRedirectInserts := same.updateRedirectInserts ▸ tidy.updateRedirectInserts
  primaryKeyInserts := same.primaryKeyInserts ▸ tidy.primaryKeyInserts
  stamped := by
    rw [same.insertedCids]
    exact fun tid mem => kept tid (tidy.stamped tid mem)
  struck := by
    rw [same.invalidatedMetadata, same.invalidatedTids]
    exact tidy.struck
  moved := by
    rw [same.hotRedirectInserts, same.invalidatedTids]
    exact tidy.moved

/-- What an append of a tuple does to the relation and to the innermost level.
    With a result there is one new pending row, at a tid that was free, in an own
    page of the level or in a page of the relation. -/
structure Places (tuple : Bytes) (result : Option Tid) (relation relation' : RelationStorage)
    (top top' : RelationOverlay) : Prop where
  notes : SameNotes top' top
  links : SameLinks relation' relation
  inserted : top'.insertedTids = (result.map (pushUnique top.insertedTids)).getD top.insertedTids
  blocks : ∀ block ∈ top'.blocks, block ∈ top.blocks ∨
    relation.nextBlock ≤ block ∧ block ∈ relation'.pendingReservedBlocks
  reserved : ∀ block ∈ relation.pendingReservedBlocks, block ∈ relation'.pendingReservedBlocks
  free : ∀ tid, result = some tid → relation.row tid = none ∧ top.pendingRow tid = none ∧
    (tid.block ∈ top.blocks ∨ relation.physical tid.block ∨ relation.nextBlock ≤ tid.block)
  stored : ((∀ tid, relation'.row tid = relation.row tid) ∧ ∀ tid, top'.pendingRow tid =
      if result = some tid then some (.pending, tuple) else top.pendingRow tid) ∨
    ((∀ tid, top'.pendingRow tid = top.pendingRow tid) ∧ ∀ tid, relation'.row tid =
      if result = some tid then some (.pending, tuple) else relation.row tid)

namespace Places

variable {tuple : Bytes} {result : Option Tid} {relation relation' relation'' : RelationStorage}
  {top top' top'' : RelationOverlay}

/-- Nothing was placed. -/
theorem unplaced (notes : SameNotes top' top) (links : SameLinks relation' relation)
    (inserted : top'.insertedTids = top.insertedTids) (blocks : top'.blocks = top.blocks)
    (reserved : ∀ block ∈ relation.pendingReservedBlocks, block ∈ relation'.pendingReservedBlocks)
    (rows : ∀ tid, relation'.row tid = relation.row tid)
    (pages : ∀ tid, top'.pendingRow tid = top.pendingRow tid) :
    Places tuple none relation relation' top top' :=
  ⟨notes, links, inserted, fun _ mem => .inl (blocks ▸ mem), reserved,
    fun _ placed => (by cases placed), .inl ⟨rows, by simpa using pages⟩⟩

theorem rows_of_none (places : Places tuple none relation relation' top top') (tid : Tid) :
    relation'.row tid = relation.row tid ∧ top'.pendingRow tid = top.pendingRow tid := by
  rcases places.stored with ⟨rows, pages⟩ | ⟨pages, rows⟩
  · exact ⟨rows tid, by simpa using pages tid⟩
  · exact ⟨by simpa using rows tid, pages tid⟩

theorem trans (first : Places tuple none relation relation' top top')
    (second : Places tuple result relation' relation'' top' top'')
    (grows : Grows relation relation') : Places tuple result relation relation'' top top'' where
  notes := second.notes.trans first.notes
  links := second.links.trans first.links
  inserted := by
    have same : top'.insertedTids = top.insertedTids := first.inserted
    rw [second.inserted, same]
  blocks := by
    intro block mem
    rcases second.blocks block mem with middle | ⟨fresh, reserved⟩
    · rcases first.blocks block middle with old | ⟨fresh, reserved⟩
      · exact .inl old
      · exact .inr ⟨fresh, second.reserved block reserved⟩
    · exact .inr ⟨grows.frontier.trans fresh, reserved⟩
  reserved := fun block mem => second.reserved block (first.reserved block mem)
  free := by
    intro tid placed
    obtain ⟨missing, unpaged, where_⟩ := second.free tid placed
    obtain ⟨row, page⟩ := first.rows_of_none tid
    refine ⟨row ▸ missing, page ▸ unpaged, ?_⟩
    rcases where_ with own | shared | fresh
    · rcases first.blocks _ own with old | ⟨fresh, -⟩
      · exact .inl old
      · exact .inr (.inr fresh)
    · exact .inr (grows.filed _ shared)
    · exact .inr (.inr (grows.frontier.trans fresh))
  stored := by
    have same := first.rows_of_none
    rcases second.stored with ⟨rows, pages⟩ | ⟨pages, rows⟩
    · exact .inl ⟨fun tid => (rows tid).trans (same tid).1, fun tid => by rw [pages, (same tid).2]⟩
    · exact .inr ⟨fun tid => (pages tid).trans (same tid).2, fun tid => by rw [rows, (same tid).1]⟩

theorem mem_inserted (places : Places tuple result relation relation' top top') {tid : Tid} :
    tid ∈ top'.insertedTids ↔ tid ∈ top.insertedTids ∨ result = some tid := by
  rw [places.inserted]
  cases result with
  | none => simp
  | some new => simp [mem_pushUnique, eq_comm]

end Places

namespace RelationStorage

theorem appendPendingTuple_reserved {relation relation' : RelationStorage} {block : Nat}
    {tuple : Bytes} {result : Option Tid}
    (h : relation.appendPendingTuple block tuple = (relation', result)) :
    relation'.pendingReservedBlocks = relation.pendingReservedBlocks := by
  unfold appendPendingTuple at h
  split at h
  · cases h
    rfl
  · dsimp only at h
    split at h <;> cases h <;> rfl

end RelationStorage

namespace Local

variable {relation relation' : RelationStorage} {top top' : RelationOverlay} {outer : Overlays}
  {tuple : Bytes} {result : Option Tid} {catalog : RelationCatalog}

theorem AppendStep.places (step : AppendStep tuple result relation top relation' top')
    (stack : StackSound relation (top :: outer)) : Places tuple result relation relation' top top' := by
  have level := stack.1
  cases step with
  | page =>
    -- Checkpoints hold no part of what a placement is about.
    exact .unplaced ⟨rfl, rfl, rfl, rfl, rfl, rfl, rfl⟩ .refl rfl rfl (fun _ => id) (fun _ => rfl)
      fun _ => rfl
  | target chosen =>
    have rows := (appendTargetBlock_spec chosen level.sound).2.1
    obtain ⟨links, reserved⟩ := appendTargetBlock_links chosen
    exact .unplaced ⟨rfl, rfl, rfl, rfl, rfl, rfl, rfl⟩ links rfl rfl
      (fun _ mem => reserved.symm ▸ mem) rows fun _ => rfl
  | existing appended =>
    obtain ⟨pages, rfl, sameBlocks, outcome⟩ :=
      appendPendingTupleToExistingPage_spec level.distinct appended
    rcases outcome with ⟨rfl, rows⟩ | ⟨tid, rfl, own, unpaged, rows⟩
    · exact .unplaced ⟨rfl, rfl, rfl, rfl, rfl, rfl, rfl⟩ .refl rfl sameBlocks (fun _ => id)
        (fun _ => rfl) rows
    · refine ⟨⟨rfl, rfl, rfl, rfl, rfl, rfl, rfl⟩, .refl, rfl, fun _ mem => .inl (sameBlocks ▸ mem),
        fun _ => id, fun _ same => ?_, .inl ⟨fun _ => rfl, fun other => ?_⟩⟩
      · cases same
        exact ⟨row_none_of_not_physical (level.unfiled _ own), unpaged, .inl own⟩
      · simp only [some.injEq, @eq_comm _ tid other]
        exact rows other
  | shared appended =>
    obtain ⟨maps, -, -, outcome⟩ := appendPendingTuple_spec appended
    have reserved := appendPendingTuple_reserved appended
    rcases outcome with ⟨rfl, rows⟩ | ⟨tid, rfl, named, paged, missing, rows⟩
    · exact .unplaced ⟨rfl, rfl, rfl, rfl, rfl, rfl, rfl⟩ maps.links rfl rfl
        (fun _ mem => reserved.symm ▸ mem) rows fun _ => rfl
    · have unpaged : top.pendingRow tid = none := by
        cases found : top.pendingRow tid with
        | none => rfl
        | some entry =>
          have own := mem_blocks_of_pendingRow found
          exact absurd (named ▸ paged) (level.unfiled _ own)
      refine ⟨⟨rfl, rfl, rfl, rfl, rfl, rfl, rfl⟩, maps.links, rfl, fun _ => .inl,
        fun _ mem => reserved.symm ▸ mem, fun _ same => ?_,
        .inr ⟨fun _ => rfl, fun other => ?_⟩⟩
      · cases same
        exact ⟨missing, unpaged, .inr (.inl (named ▸ paged))⟩
      · simp only [some.injEq, @eq_comm _ tid other]
        exact rows other
  | reserved reservation appended =>
    unfold reserveBlock at reservation
    split at reservation
    · cases reservation
      have unfiled : ¬ relation.physical relation.nextBlock := fun paged =>
        absurd (stack.sound.below _ paged) (lt_irrefl _)
      have fresh : relation.nextBlock ∉ top.blocks := fun mem =>
        absurd (level.below _ mem) (lt_irrefl _)
      have kept : ∀ block ∈ relation.pendingReservedBlocks,
          block ∈ relation.pendingReservedBlocks.insert relation.nextBlock :=
        fun block mem => OrdSet.mem_insert.mpr (.inr mem)
      obtain ⟨pages, rfl, outcome⟩ := appendPendingTupleToNewPage_spec fresh appended
      rcases outcome with ⟨rfl, same⟩ | ⟨tid, rfl, named, blocks, unpaged, rows⟩
      · rw [same]
        exact .unplaced ⟨rfl, rfl, rfl, rfl, rfl, rfl, rfl⟩ ⟨rfl, rfl, rfl, rfl, rfl⟩ rfl rfl
          kept (fun _ => rfl) fun _ => rfl
      · refine ⟨⟨rfl, rfl, rfl, rfl, rfl, rfl, rfl⟩, ⟨rfl, rfl, rfl, rfl, rfl⟩, rfl, fun block mem => ?_,
          kept, fun _ same => ?_, .inl ⟨fun _ => rfl, fun other => ?_⟩⟩
        · have mem : block ∈ top.blocks ++ [relation.nextBlock] := blocks ▸ mem
          rcases mem_append.mp mem with old | new
          · exact .inl old
          · rw [mem_singleton.mp new]
            exact .inr ⟨le_rfl, OrdSet.mem_insert.mpr (.inl rfl)⟩
        · cases same
          refine ⟨row_none_of_not_physical ?_, unpaged, .inr (.inr named.ge)⟩
          rw [named]
          exact unfiled
        · simp only [some.injEq, @eq_comm _ tid other]
          exact rows other
    · cases reservation

theorem AppendSteps.places (steps : AppendSteps tuple result relation top relation' top')
    (stack : StackSound relation (top :: outer)) : Places tuple result relation relation' top top' := by
  induction steps with
  | nil =>
    exact .unplaced ⟨rfl, rfl, rfl, rfl, rfl, rfl, rfl⟩ .refl rfl rfl (fun _ => id) (fun _ => rfl)
      fun _ => rfl
  | cons first _ ih =>
    have writes := first.writes stack
    exact (first.places stack).trans (ih writes.stack) writes.grows
  | last step => exact step.places stack

theorem appendPendingTuple_places {here here' : Local}
    (stack : StackSound here.relation here.overlays)
    (h : here.appendPendingTuple catalog tuple = (here', result)) :
    ∃ top top' outer, here.ensureTransaction.overlays = top :: outer ∧
      here'.overlays = top' :: outer ∧ Places tuple result here.relation here'.relation top top' := by
  have started := (Writes.start stack).stack
  obtain ⟨top, top', outer, levels, levels', steps⟩ := appendPendingTuple_steps h
  rw [ensureTransaction_relation, levels] at started
  exact ⟨top, top', outer, levels, levels', steps.places started⟩

end Local

/-! ## Orderly levels -/

namespace Overlays

/-- Every level is tidy, and one that did not clear the relation inserted no row
    of the levels outside it. -/
def Orderly : Overlays → Prop
  | [] => True
  | top :: outer => top.Tidy ∧
      (top.cleared = false → ∀ tid ∈ top.insertedTids, tid ∉ inserted outer) ∧ Orderly outer

/-- A change of the innermost level that keeps its rows. -/
theorem Orderly.top {top top' : RelationOverlay} {outer : Overlays} (orderly : Orderly (top :: outer))
    (tidy : top'.Tidy) (rows : top'.insertedTids = top.insertedTids)
    (cleared : top'.clearedRelation = top.clearedRelation) : Orderly (top' :: outer) := by
  refine ⟨tidy, fun uncleared tid mine => ?_, orderly.2.2⟩
  rw [rows] at mine
  exact orderly.2.1 (by simpa [RelationOverlay.cleared, cleared] using uncleared) tid mine

theorem Orderly.push {outer : Overlays} (orderly : Orderly outer) : Orderly ({} :: outer) :=
  ⟨.empty, fun _ _ mem => by simp at mem, orderly⟩

end Overlays

variable {relation : RelationStorage}

/-- A row of the levels outside is in an own page there, if the relation does
    not have it. -/
theorem StackSound.mem_blocks_of_inserted {overlays : Overlays}
    (stack : StackSound relation overlays) {tid : Tid} (mine : tid ∈ inserted overlays)
    (missing : relation.row tid = none) : tid.block ∈ blocks overlays := by
  induction overlays generalizing relation with
  | nil => simp [inserted, Overlays.segment] at mine
  | cons top outer ih =>
    rcases mem_inserted_cons.mp mine with own | ⟨uncleared, below⟩
    · rcases stack.1.placed tid own with paged | ⟨stored, -⟩
      · obtain ⟨entry, found⟩ := isSome_iff_exists.mp paged
        exact mem_blocks_cons.mpr
          (.inl (mem_blocks_of_pendingRow found))
      · simp [missing] at stored
    · exact mem_blocks_cons.mpr
        (.inr ⟨uncleared, ih (stack.outer uncleared) below missing⟩)

/-- A row that the level took in is of no level outside it. -/
theorem Places.orderly {tuple : Bytes} {result : Option Tid} {relation' : RelationStorage}
    {top top' : RelationOverlay} {outer : Overlays}
    (places : Places tuple result relation relation' top top')
    (stack : StackSound relation (top :: outer)) (stack' : StackSound relation' (top' :: outer))
    (orderly : Overlays.Orderly (top :: outer)) : Overlays.Orderly (top' :: outer) := by
  have tidy := orderly.1.notes places.notes fun tid mem => places.mem_inserted.mpr (.inl mem)
  refine ⟨tidy, fun uncleared tid mine outside => ?_, orderly.2.2⟩
  have before : top.cleared = false := by
    simpa [cleared, places.notes.clearedRelation] using uncleared
  rcases places.mem_inserted.mp mine with old | new
  · exact orderly.2.1 before tid old outside
  · have paged := (stack.outer before).mem_blocks_of_inserted outside (places.free tid new).1
    rcases stack'.1.placed tid mine with own | ⟨stored, -⟩
    · obtain ⟨entry, found⟩ := isSome_iff_exists.mp own
      exact stack'.1.apart uncleared _ (mem_blocks_of_pendingRow found) paged
    · obtain ⟨entry, found⟩ := isSome_iff_exists.mp stored
      exact ((stack'.outer uncleared).unfiled paged).1 (physical_of_row found)

namespace Local

variable {catalog : RelationCatalog} {here here' : Local}

theorem ensureTransaction_orderly (orderly : Overlays.Orderly here.overlays) :
    Overlays.Orderly here.ensureTransaction.overlays := by
  obtain ⟨relation, overlays⟩ := here
  cases overlays with
  | nil => exact Overlays.Orderly.push trivial
  | cons top outer => exact orderly

theorem modifyTop_orderly {f : RelationOverlay → RelationOverlay}
    (orderly : Overlays.Orderly here.overlays)
    (tidy : ∀ top ∈ here.overlays.head?, top.Tidy → (f top).Tidy)
    (rows : ∀ top, (f top).insertedTids = top.insertedTids)
    (cleared : ∀ top, (f top).clearedRelation = top.clearedRelation) :
    Overlays.Orderly (here.modifyTop f).overlays := by
  obtain ⟨relation, overlays⟩ := here
  cases overlays with
  | nil => exact orderly
  | cons top outer => exact orderly.top (tidy top rfl orderly.1) (rows top) (cleared top)

theorem appendPendingTuple_orderly (tuple : Bytes) (stack : StackSound here.relation here.overlays)
    (orderly : Overlays.Orderly here.overlays) :
    Overlays.Orderly (here.appendPendingTuple catalog tuple).1.overlays := by
  have started := (Writes.start stack).stack
  have opened := ensureTransaction_orderly orderly
  obtain ⟨top, top', outer, levels, levels', steps⟩ :=
    appendPendingTuple_steps (Prod.eta (here.appendPendingTuple catalog tuple)).symm
  rw [ensureTransaction_relation, levels] at started
  rw [levels] at opened
  rw [levels']
  exact (steps.places started).orderly started (steps.writes started).stack opened

/-- Pages hold no part of what has to be tidy. -/
theorem Stamps.orderly (stamps : Stamps here here') (orderly : Overlays.Orderly here.overlays) :
    Overlays.Orderly here'.overlays := by
  cases stamps with
  | shared => exact orderly
  | own keeps stamped =>
    obtain ⟨line, -, rfl⟩ := map_eq_some_iff.mp stamped
    exact orderly.top (orderly.1.notes ⟨rfl, rfl, rfl, rfl, rfl, rfl, rfl⟩ fun _ => id) rfl rfl

theorem Move.orderly (move : Move catalog here here')
    (stack : StackSound here.relation here.overlays) (orderly : Overlays.Orderly here.overlays) :
    Overlays.Orderly here'.overlays := by
  have stack' := (move.writes stack).stack
  cases move with
  | start => exact ensureTransaction_orderly orderly
  | compress | compressUpdate | limit => exact orderly
  | append _ tuple => exact appendPendingTuple_orderly tuple stack orderly
  | appendOwn appended =>
    exact ((AppendStep.existing appended).places stack).orderly stack stack' orderly
  | stampInsert _ tid xid cid own =>
    refine (here.setInsertMetadata_stamps tid xid cid).orderly (modifyTop_orderly orderly
      (fun top head tidy => tidy.setInsertCid (own top head) cid) (fun _ => rfl) fun _ => rfl)
  | stampXmax _ tid xmax => exact (here.setRowXmax_stamps tid xmax).orderly orderly
  | invalidate _ tid =>
    exact modifyTop_orderly orderly (fun _ _ tidy => tidy.invalidate tid) (fun _ => rfl)
      fun _ => rfl
  | redirect stored own struck =>
    have rows := insertHotRedirect_kept
    refine orderly.top (orderly.1.insertHotRedirect struck _) (rows ..).2 ?_
    unfold RelationOverlay.insertHotRedirect
    split <;> rfl
  | note _ f same tidy =>
    exact modifyTop_orderly orderly tidy (fun top => (same top).insertedTids)
      fun top => (same top).clearedRelation

theorem Moves.orderly (moves : Moves catalog here here')
    (stack : StackSound here.relation here.overlays) (orderly : Overlays.Orderly here.overlays) :
    Overlays.Orderly here'.overlays := by
  induction moves with
  | refl => exact orderly
  | tail before last ih => exact last.orderly (Moves.writes before stack).stack ih

end Local

/-! ## Clears and releases -/

theorem RelationOverlay.Tidy.dropRows {overlay : RelationOverlay} (tidy : overlay.Tidy) :
    overlay.dropRows.Tidy :=
  { tidy with
    insertedCids := nodup_nil
    primaryKeyInserts := nodup_nil
    stamped := fun _ mem => by simp [RelationOverlay.dropRows] at mem }

theorem Local.clear_orderly (catalog : RelationCatalog) (preserveTidSpace : Bool) {here : Local}
    (stack : StackSound here.relation here.overlays) (orderly : Overlays.Orderly here.overlays) :
    Overlays.Orderly (here.clear catalog preserveTidSpace).overlays := by
  obtain ⟨relation, overlays⟩ := here
  cases overlays with
  | nil => exact orderly
  | cons top outer =>
    obtain ⟨keys, cleared⟩ := clear_level relation top outer catalog preserveTidSpace
    rw [cleared]
    exact ⟨{ orderly.1.dropRows with
      struck := fun tid mem => mem_pushAll.mpr (.inl (orderly.1.struck tid mem))
      moved := fun tid mem => mem_pushAll.mpr (.inl (orderly.1.moved tid mem)) },
      nofun, orderly.2.2⟩

namespace RelationOverlay

variable {parent : RelationOverlay}

theorem Tidy.absorbClear (tidy : parent.Tidy) (child : RelationOverlay) :
    (parent.absorbClear child).Tidy := by
  unfold RelationOverlay.absorbClear
  split
  · exact tidy
  · split
    · exact tidy.dropRows
    · exact { tidy.dropRows with }

theorem Tidy.appendFrom {child : RelationOverlay} (outside : parent.Tidy) (inside : child.Tidy) :
    (parent.appendFrom child).Tidy := by
  have base := outside.absorbClear child
  refine ⟨Dict.keyed_extend _ base.insertedCids, Dict.keyed_extend _ base.invalidatedMetadata,
    Dict.keyed_extend _ base.hotRedirectInserts, Dict.keyed_extend _ base.updateRedirectInserts,
    Dict.keyed_extend _ base.primaryKeyInserts, ?_, ?_, ?_⟩
  · intro tid mem
    exact mem_pushAll.mpr ((Dict.mem_keys_extend.mp mem).imp (base.stamped tid)
      (inside.stamped tid))
  · intro tid mem
    exact mem_pushAll.mpr ((Dict.mem_keys_extend.mp mem).imp (base.struck tid)
      (inside.struck tid))
  · intro tid mem
    exact mem_pushAll.mpr ((Dict.mem_keys_extend.mp mem).imp (base.moved tid)
      (inside.moved tid))

end RelationOverlay

variable {catalog : Catalog}

theorem Overlays.Orderly.release {child parent : RelationOverlay} {outer : Overlays}
    (orderly : Orderly (child :: parent :: outer)) : Orderly (parent.appendFrom child :: outer) := by
  obtain ⟨inside, apart, outside, apart', rest⟩ := orderly
  refine ⟨outside.appendFrom inside, fun uncleared tid mine below => ?_, rest⟩
  cases cleared : child.cleared with
  | true =>
    obtain ⟨first, absorbed⟩ := @RelationOverlay.absorbClear_of_cleared parent child cleared
    simp [RelationOverlay.appendFrom, RelationOverlay.cleared, absorbed] at uncleared
  | false =>
    obtain ⟨-, rows, kept, -⟩ := @appendFrom_of_uncleared parent child cleared
    have uncleared' : parent.cleared = false := by
      simpa [RelationOverlay.cleared, kept] using uncleared
    rw [rows, mem_pushAll] at mine
    rcases mine with old | new
    · exact apart' uncleared' tid old below
    · exact apart cleared tid new (mem_inserted_cons.mpr (.inr ⟨uncleared', below⟩))

/-! ## Runs -/

theorem Effect.orderly {relid : Relid} {sid : SessionId} {call : Call} {view view' : View}
    (effect : Effect catalog relid sid call view view') (shared : Shared view)
    (orderly : ∀ other, Overlays.Orderly (view.levels other)) (other : SessionId) :
    Overlays.Orderly (view'.levels other) := by
  have stack := shared.levels sid
  have put : ∀ here : Local, Overlays.Orderly here.overlays →
      Overlays.Orderly ((view.put sid here).levels other) := by
    intro here own
    by_cases same : other = sid
    · subst same
      simpa using own
    · rw [View.put_levels_other view here same]
      exact orderly other
  have single : Overlays.Orderly [{}] := Overlays.Orderly.push trivial
  cases effect with
  | rest => exact orderly other
  | start => exact put _ single
  | @row _ _ f on notClear =>
    have moves : Local.Moves (catalog relid) (view.reach sid) (f (view.reach sid)) :=
      Call.onRelation_moves on notClear stack
    exact put _ (moves.orderly stack (orderly sid))
  | clear => exact put _ (Local.clear_orderly _ false stack (orderly sid))
  | push =>
    exact put _ (Overlays.Orderly.push (Local.ensureTransaction_orderly (orderly sid)))
  | release levels =>
    have own := orderly sid
    rw [levels] at own
    exact put _ own.release
  | undo levels =>
    have own := orderly sid
    rw [levels] at own
    exact put _ own.2.2
  | drop levels kept =>
    have own := orderly sid
    rw [levels] at own
    rcases kept with rfl | ⟨-, rfl⟩
    · exact put _ own.2.2
    · exact put _ single
  | commit _ kept =>
    rcases kept with rfl | rfl
    · exact put _ trivial
    · exact put _ single
  | rollback => exact put _ trivial

/-- Every session has its levels of every relation in order. -/
def AllOrderly (state : StorageState) : Prop :=
  ∀ relid sid, Overlays.Orderly ((state.view relid).levels sid)

theorem reaches_orderly {state : StorageState}
    (reached : Reaches (step catalog) RespectsClears .initial state) : AllOrderly state := by
  induction reached with
  | refl => exact fun _ _ => trivial
  | tail before respects taken orderly =>
    have shared := reaches_shared before
    exact fun relid => (step_effect taken relid).orderly (shared relid) (orderly relid)

end FastPg.Storage
