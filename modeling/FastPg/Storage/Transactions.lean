import FastPg.Storage.Publish

/-! # Levels through release, rollback and clear

Releasing a level merges it into its parent, rolling it back kills its rows or
puts the relation back that a clear took away. Each keeps the stack well
formed, and none of them publishes a row.
-/

namespace FastPg.Storage

open Assoc Option RelationStorage RelationOverlay Overlays OrdSet
open List hiding insert lookup

/-! ## Restoring a relation -/

namespace RelationStorage

variable {relation : RelationStorage}

theorem mem_livePageTids {page : Page} {tid : Tid} :
    tid ∈ livePageTids page ↔
      tid.block = page.block ∧ ∃ bytes, page.row tid.offset = some (.live, bytes) := by
  unfold livePageTids
  simp only [List.mem_map, List.mem_filter, List.mem_range]
  constructor
  · rintro ⟨index, ⟨inside, live⟩, rfl⟩
    refine ⟨rfl, ?_⟩
    cases found : page.linePointers[index]? with
    | none => simp [found] at live
    | some line =>
      simp only [found, decide_eq_true_eq] at live
      have row : page.line (index + 1) = some line := by simp [Page.line, found]
      exact ⟨_, by rw [Page.row_of_line row, live]⟩
  · rintro ⟨named, bytes, live⟩
    have inside := Page.row_isSome_iff.mp (by rw [live]; rfl)
    refine ⟨tid.offset - 1, ⟨by omega, ?_⟩, Tid.ext_iff'.mpr ⟨named.symm, by dsimp only; omega⟩⟩
    cases found : page.line tid.offset with
    | none =>
      rw [Page.row_none_of_line found] at live
      cases live
    | some line =>
      rw [Page.row_of_line found] at live
      simp only [Option.some.injEq, Prod.mk.injEq] at live
      have pointer : page.linePointers[tid.offset - 1]? = some line := by
        have positive : tid.offset ≠ 0 := by omega
        simpa [Page.line, positive] using found
      simp [pointer, live.1]

theorem mem_pageList {page : Page} :
    page ∈ relation.pageList ↔ relation.page page.block = some page := by
  unfold pageList RelationStorage.page
  rw [mem_filterMap]
  constructor
  · rintro ⟨entry, mem, same⟩
    obtain ⟨index, found⟩ := mem_iff_getElem?.mp mem
    cases entry with
    | none => cases same
    | some other =>
      cases same
      rw [relation.filed index page found, found]
      rfl
  · intro found
    rw [join_eq_some_iff] at found
    exact ⟨some page, mem_of_getElem? found, rfl⟩

theorem physical_lt_length {block : Nat} (paged : relation.physical block) :
    block < relation.pages.length := by
  unfold physical page at paged
  by_contra outside
  rw [getElem?_eq_none (by omega)] at paged
  cases paged

theorem pageList_blocks (relation : RelationStorage) :
    (relation.pageList.map Page.block).Nodup := by
  have sorted : (relation.pageList.map Page.block).Pairwise (· < ·) := by
    rw [pairwise_map, pageList, pairwise_filterMap]
    rw [pairwise_iff_getElem]
    intro i j inside inside' before page first page' second
    have named := relation.filed i page (List.getElem?_eq_some_iff.mpr ⟨inside, first⟩)
    have named' := relation.filed j page' (List.getElem?_eq_some_iff.mpr ⟨inside', second⟩)
    omega
  exact sorted.imp ne_of_lt

theorem livePageTids_nodup (page : Page) : (livePageTids page).Nodup := by
  refine (nodup_range.filter _).map ?_
  intro a b same
  simp only [Tid.mk.injEq] at same
  omega

theorem length_filter_range {α : Type*} (p : α → Bool) (items : List α) :
    ((List.range items.length).filter fun index => items[index]?.any p).length =
      (items.filter p).length := by
  induction items with
  | nil => rfl
  | cons item rest ih =>
    have tail : (fun index => (item :: rest)[index]?.any p) ∘ Nat.succ =
        fun index => rest[index]?.any p := by
      funext index
      simp
    rw [List.length_cons, List.range_succ_eq_map, List.filter_cons, List.filter_map, tail]
    cases chosen : p item <;> simp [chosen, ih]

theorem length_livePageTids (page : Page) : (livePageTids page).length =
    (page.linePointers.filter fun line => line.state = .live).length := by
  rw [livePageTids, length_map,
    ← length_filter_range (fun line => line.state = .live) page.linePointers]
  refine congrArg List.length (filter_congr fun index _ => ?_)
  cases page.linePointers[index]? <;> rfl

theorem nodup_liveTids (relation : RelationStorage) :
    (relation.pageList.flatMap livePageTids).Nodup := by
  rw [nodup_flatMap]
  refine ⟨fun page _ => livePageTids_nodup page, ?_⟩
  have distinct := pairwise_map.mp relation.pageList_blocks
  refine distinct.imp fun ne => ?_
  intro tid mem member'
  exact ne ((mem_livePageTids.mp mem).1.symm.trans (mem_livePageTids.mp member').1)

theorem stateCount_live (relation : RelationStorage) :
    relation.stateCount .live = (relation.pageList.flatMap livePageTids).length := by
  rw [stateCount, length_flatMap]
  exact congrArg List.sum (map_congr_left fun page _ => (length_livePageTids page).symm)

/-- Recomputing the statistics finds the live rows again, whatever they were. -/
theorem restoreMetadata_sound (relation : RelationStorage) (checkpoint : RelationCheckpoint) :
    (relation.restoreMetadataPreservingTidSpace checkpoint).Sound := by
  constructor
  · intro block paged
    have inside : block < relation.pages.length := physical_lt_length paged
    change block < max (max relation.nextBlock checkpoint.nextBlock) relation.pages.length
    omega
  · intro tid
    change tid ∈ ofList (relation.pageList.flatMap livePageTids) ↔
      ∃ bytes, relation.row tid = some (.live, bytes)
    rw [mem_ofList, mem_flatMap]
    constructor
    · rintro ⟨page, mem, live⟩
      obtain ⟨named, bytes, row⟩ := mem_livePageTids.mp live
      refine ⟨bytes, ?_⟩
      unfold RelationStorage.row
      rw [named, mem_pageList.mp mem]
      exact row
    · rintro ⟨bytes, row⟩
      unfold RelationStorage.row at row
      cases paged : relation.page tid.block with
      | none => simp [paged] at row
      | some page =>
        simp only [paged, bind_some] at row
        have named := page_block paged
        exact ⟨page, mem_pageList.mpr (named ▸ paged), mem_livePageTids.mpr ⟨named.symm, bytes, row⟩⟩
  · change relation.stateCount .live =
      (ofList (relation.pageList.flatMap livePageTids)).elems.length
    rw [length_ofList relation.nodup_liveTids, stateCount_live]

end RelationStorage

/-- A change that only kills rows: no row is lost, moved, published or revived. -/
structure Kills (before after : RelationStorage) : Prop where
  sound : after.Sound
  frontier : before.nextBlock ≤ after.nextBlock
  rows : ∀ tid, after.row tid = before.row tid ∨ after.row tid = (before.row tid).map Local.kill
  physical : ∀ block, after.physical block ↔ before.physical block

namespace Kills

variable {before after : RelationStorage}

theorem live (kills : Kills before after) {tid : Tid}
    {bytes : Bytes} (found : after.row tid = some (.live, bytes)) :
    before.row tid = some (.live, bytes) := by
  cases kills.rows tid with
  | inl same => rw [← same, found]
  | inr dead =>
    rw [found] at dead
    cases stored : before.row tid with
    | none => simp [stored] at dead
    | some entry => simp [stored, Local.kill] at dead

theorem isSome (kills : Kills before after) (tid : Tid) :
    (after.row tid).isSome ↔ (before.row tid).isSome := by
  cases kills.rows tid with
  | inl same => rw [same]
  | inr dead => simp [dead]

theorem keeps (kills : Kills before after) {overlays : Overlays}
    (stack : StackSound before overlays) : Keeps before after overlays where
  sound := kills.sound
  frontier := kills.frontier
  rows := fun tid found => (kills.isSome tid).mpr found
  unfiled := fun block mem paged => (stack.unfiled mem).1 ((kills.physical block).mp paged)
  held := fun _ _ bytes found => ⟨bytes, kills.live found⟩

end Kills

namespace RelationOverlay

/-- The page checkpoints of a level reach past every live row of their page. -/
def CheckpointsCover (overlay : RelationOverlay) (relation : RelationStorage) : Prop :=
  ∀ entry ∈ overlay.pageCheckpoints, ∀ offset bytes,
    relation.row ⟨entry.1, offset⟩ = some (.live, bytes) → offset ≤ entry.2.lineCount

/-- Restore one checkpointed page. -/
def restorePage (relation : RelationStorage) (entry : Nat × PageCheckpoint) : RelationStorage :=
  relation.modifyPage entry.1 (fun page => page.restoreToPreservingTidSpace entry.2)
    fun page => page.restore_block entry.2

def restorePages (checkpoints : List (Nat × PageCheckpoint)) (relation : RelationStorage) :
    RelationStorage :=
  checkpoints.foldl restorePage relation

variable {overlay : RelationOverlay} {relation : RelationStorage}

theorem row_restorePage (relation : RelationStorage) (entry : Nat × PageCheckpoint) (tid : Tid) :
    (restorePage relation entry).row tid =
      if tid.block = entry.1 ∧ entry.2.lineCount < tid.offset then (relation.row tid).map Local.kill
      else relation.row tid := by
  unfold restorePage
  rw [row_modifyPage]
  by_cases here : tid.block = entry.1
  · simp only [here, if_true, true_and]
    unfold row
    rw [here]
    cases relation.page entry.1 with
    | none => simp
    | some page =>
      simp only [bind_some, Page.row_restore]
      by_cases past : entry.2.lineCount < tid.offset
      · rw [if_neg (by omega), if_pos past]
        rfl
      · rw [if_pos (by omega), if_neg past]
  · simp [here]

theorem restorePages_spec (checkpoints : List (Nat × PageCheckpoint)) (relation : RelationStorage) :
    (∀ tid, (restorePages checkpoints relation).row tid =
      if ∃ entry ∈ checkpoints, tid.block = entry.1 ∧ entry.2.lineCount < tid.offset then
        (relation.row tid).map Local.kill
      else relation.row tid) ∧
    (∀ block, (restorePages checkpoints relation).physical block ↔ relation.physical block) ∧
    (restorePages checkpoints relation).nextBlock = relation.nextBlock := by
  induction checkpoints generalizing relation with
  | nil => exact ⟨fun tid => by simp [restorePages], fun _ => Iff.rfl, rfl⟩
  | cons entry rest ih =>
    obtain ⟨rows, physical, frontier⟩ := ih (restorePage relation entry)
    refine ⟨fun tid => ?_, fun block => ?_, frontier⟩
    · refine (rows tid).trans ?_
      rw [row_restorePage]
      have twice : ∀ row : Option (LinePointerState × Bytes),
          (row.map Local.kill).map Local.kill = row.map Local.kill := by
        intro row
        cases row <;> rfl
      simp only [exists_mem_cons_iff]
      by_cases here : tid.block = entry.1 ∧ entry.2.lineCount < tid.offset
      · rw [if_pos here, twice, ite_self]
        exact (if_pos (.inl here)).symm
      · rw [if_neg here]
        exact if_congr (or_iff_right here).symm rfl rfl
    · exact (physical block).trans physical_modifyPage

theorem restoreRelationSnapshot_kills (sound : relation.Sound)
    (checkpointed : overlay.relationCheckpoint = none → overlay.pageCheckpoints = []) :
    Kills relation (overlay.restoreRelationSnapshot relation) := by
  obtain ⟨rows, physical, frontier⟩ := restorePages_spec overlay.pageCheckpoints relation
  unfold restoreRelationSnapshot
  dsimp only
  cases taken : overlay.relationCheckpoint with
  | none =>
    rw [checkpointed taken]
    exact ⟨sound, le_rfl, fun _ => .inl rfl, fun _ => Iff.rfl⟩
  | some checkpoint =>
    refine ⟨restoreMetadata_sound _ checkpoint, ?_, fun tid => ?_, physical⟩
    · change relation.nextBlock ≤ max (max (restorePages overlay.pageCheckpoints relation).nextBlock
        checkpoint.nextBlock) _
      rw [frontier]
      omega
    · have row := rows tid
      split at row
      · exact .inr row
      · exact .inl row

theorem restoreRelationSnapshot_live (cover : overlay.CheckpointsCover relation) {tid : Tid}
    {bytes : Bytes} (found : relation.row tid = some (.live, bytes)) :
    (overlay.restoreRelationSnapshot relation).row tid = some (.live, bytes) := by
  have row := (restorePages_spec overlay.pageCheckpoints relation).1 tid
  have kept : (restorePages overlay.pageCheckpoints relation).row tid = some (.live, bytes) := by
    rw [row, if_neg]
    · exact found
    · rintro ⟨entry, mem, here, past⟩
      have inside := cover entry mem tid.offset bytes (by rw [← here]; exact found)
      omega
  unfold restoreRelationSnapshot
  dsimp only
  cases overlay.relationCheckpoint with
  | none => exact kept
  | some checkpoint => exact kept

end RelationOverlay

/-! ## Rolling back a level -/

namespace Local

variable {relation : RelationStorage}

theorem restoreRollbackMetadata_kills (sound : relation.Sound) (checkpoint : RelationCheckpoint) :
    Kills relation (relation.restoreRollbackMetadataPreservingTidSpace checkpoint) := by
  have raised : relation.nextBlock ≤
      max (max relation.nextBlock checkpoint.nextBlock) relation.pages.length := by omega
  unfold restoreRollbackMetadataPreservingTidSpace
  dsimp only
  split
  · exact ⟨sound.congr rfl raised rfl rfl, raised, fun _ => .inl rfl, fun _ => Iff.rfl⟩
  · exact ⟨sound.congr rfl raised rfl rfl, raised, fun _ => .inl rfl, fun _ => Iff.rfl⟩

/-- A level without a clear is rolled back by killing the rows it inserted. -/
theorem rollbackOverlay_spec {overlay : RelationOverlay}
    (sound : relation.Sound) (uncleared : overlay.cleared = false) :
    Kills relation (rollbackOverlay relation overlay) ∧
      ∀ tid, tid ∉ overlay.insertedTids →
        (rollbackOverlay relation overlay).row tid = relation.row tid := by
  have none : overlay.clearedRelation = none :=
    clearedRelation_of_not_cleared uncleared
  have rows := markDead_rowStep.foldl_row (fun _ => rfl) overlay.insertedTids relation
  have deadSound := markDead_rowStep.foldl_sound overlay.insertedTids sound
  have maps := markDead_rowStep.foldl_maps overlay.insertedTids relation
  have physical := fun block =>
    @RowStep.foldl_physical _ _ _ _ markDead_rowStep overlay.insertedTids relation block
  unfold rollbackOverlay
  rw [none]
  generalize overlay.insertedTids.foldl (fun relation tid => (relation.markDead tid).1) relation =
    dead at rows deadSound maps physical ⊢
  dsimp only [getD_none]
  have unreserved : Sound { dead with
      pendingReservedBlocks := (overlay.pendingPages.map Page.block).foldl erase
        dead.pendingReservedBlocks } := deadSound.congr rfl le_rfl rfl rfl
  have killed : ∀ tid, dead.row tid = relation.row tid ∨
      dead.row tid = (relation.row tid).map kill := by
    intro tid
    rw [rows]
    split
    · exact .inr rfl
    · exact .inl rfl
  have kept : ∀ tid, tid ∉ overlay.insertedTids → dead.row tid = relation.row tid := by
    intro tid absent
    rw [rows, if_neg fun mem => absent mem.1]
  cases overlay.relationCheckpoint with
  | none => exact ⟨⟨unreserved, maps.nextBlock.ge, killed, physical⟩, kept⟩
  | some checkpoint =>
    have restored := restoreRollbackMetadata_kills unreserved checkpoint
    have same : ∀ tid, (restoreRollbackMetadataPreservingTidSpace
        { dead with
          pendingReservedBlocks := (overlay.pendingPages.map Page.block).foldl erase
            dead.pendingReservedBlocks } checkpoint).row tid = dead.row tid := by
      intro tid
      unfold restoreRollbackMetadataPreservingTidSpace
      dsimp only
      split <;> rfl
    refine ⟨⟨restored.sound, maps.nextBlock.ge.trans restored.frontier, ?_, ?_⟩, ?_⟩
    · intro tid
      rw [same]
      exact killed tid
    · exact fun block => (restored.physical block).trans (physical block)
    · intro tid absent
      rw [same]
      exact kept tid absent

/-- Rolling back the innermost level leaves the outer ones well formed. -/
theorem rollbackOverlay_stack {top : RelationOverlay}
    {outer : Overlays} (stack : StackSound relation (top :: outer)) :
    StackSound (rollbackOverlay relation top) outer := by
  cases saved : top.clearedRelation with
  | some snapshot =>
    have tail := stack.2
    rw [saved] at tail
    unfold rollbackOverlay
    rw [saved]
    exact tail
  | none =>
    have uncleared : top.cleared = false := by simp [cleared, saved]
    have kills := (rollbackOverlay_spec stack.sound uncleared).1
    have tail := stack.outer uncleared
    exact tail.keeps (kills.keeps tail)

/-- The live rows survive: what the level inserted was not live. -/
theorem rollbackOverlay_live {top : RelationOverlay}
    {outer : Overlays} (stack : StackSound relation (top :: outer)) (tid : Tid) (bytes : Bytes) :
    (rollbackOverlay relation top).row tid = some (.live, bytes) ↔
      (top.clearedRelation.getD relation).row tid = some (.live, bytes) := by
  cases saved : top.clearedRelation with
  | some snapshot =>
    unfold rollbackOverlay
    rw [saved]
    rfl
  | none =>
    have uncleared : top.cleared = false := by simp [cleared, saved]
    obtain ⟨kills, kept⟩ := rollbackOverlay_spec stack.sound uncleared
    refine ⟨kills.live, fun found => ?_⟩
    by_cases own : tid ∈ top.insertedTids
    · cases stack.1.placed tid own with
      | inl paged =>
        obtain ⟨entry, pending⟩ := isSome_iff_exists.mp paged
        have unfiled := stack.1.unfiled _ (mem_blocks_of_pendingRow pending)
        exact absurd (physical_of_row found) unfiled
      | inr shared => exact absurd found (shared.2 bytes)
    · rw [kept tid own]
      exact found

end Local

/-! ## Releasing a level -/

namespace RelationOverlay

theorem pendingRow_append {merged parent child : RelationOverlay}
    (pages : merged.pendingPages = parent.pendingPages ++ child.pendingPages) (tid : Tid) :
    merged.pendingRow tid =
      if tid.block ∈ child.blocks then child.pendingRow tid else parent.pendingRow tid := by
  have found : merged.pendingPage tid.block =
      (child.pendingPage tid.block).or (parent.pendingPage tid.block) := by
    simp [pendingPage, pages, reverse_append, find?_append]
  unfold pendingRow
  rw [found]
  cases paged : child.pendingPage tid.block with
  | some page =>
    obtain ⟨mem, named⟩ := pendingPage_spec paged
    have inside : tid.block ∈ child.blocks := mem_map.mpr ⟨page, mem, named⟩
    rw [if_pos inside]
    rfl
  | none =>
    have outside : tid.block ∉ child.blocks := by
      intro mem
      obtain ⟨page, owned, named⟩ := mem_map.mp mem
      unfold pendingPage at paged
      rw [find?_eq_none] at paged
      exact paged page (mem_reverse.mpr owned) (by simpa using named)
    rw [if_neg outside]
    rfl

section Release

variable {relation : RelationStorage} {parent child : RelationOverlay} {outer : Overlays}

theorem absorbClear_of_uncleared (uncleared : child.cleared = false) :
    parent.absorbClear child = parent := by
  simp [absorbClear, clearedRelation_of_not_cleared uncleared]

theorem appendFrom_of_uncleared (uncleared : child.cleared = false) :
    (parent.appendFrom child).pendingPages = parent.pendingPages ++ child.pendingPages ∧
      (parent.appendFrom child).insertedTids = pushAll parent.insertedTids child.insertedTids ∧
      (parent.appendFrom child).clearedRelation = parent.clearedRelation ∧
      (parent.appendFrom child).relationCheckpoint =
        parent.relationCheckpoint.or child.relationCheckpoint ∧
      (parent.appendFrom child).pageCheckpoints = child.pageCheckpoints.foldl
        (fun acc entry => insertNew acc entry.1 entry.2) parent.pageCheckpoints := by
  simp [appendFrom, absorbClear_of_uncleared uncleared]

/-- A level that cleared the relation leaves its parent no rows. -/
theorem absorbClear_of_cleared (cleared : child.cleared = true) :
    ∃ first, parent.absorbClear child = { parent.dropRows with clearedRelation := some first } := by
  obtain ⟨snapshot, saved⟩ := isSome_iff_exists.mp cleared
  unfold absorbClear
  rw [saved]
  dsimp only
  cases earlier : parent.clearedRelation with
  | some first => exact ⟨first, by simp [dropRows, earlier]⟩
  | none => exact ⟨_, rfl⟩

theorem absorbClear_level (childLevel : LevelSound relation child (parent :: outer))
    (parentLevel : LevelSound (child.clearedRelation.getD relation) parent outer) :
    LevelSound relation (parent.absorbClear child) outer := by
  cases cleared : child.cleared with
  | false =>
    rw [absorbClear_of_uncleared cleared]
    rwa [clearedRelation_of_not_cleared cleared] at parentLevel
  | true =>
    obtain ⟨first, absorbed⟩ := @absorbClear_of_cleared parent child cleared
    rw [absorbed]
    refine ⟨childLevel.sound, nodup_nil, nofun, nofun, ?_, nofun, nofun, parentLevel.checkpointed⟩
    simp [pendingRow, pendingPage, dropRows]

/-- Merging two levels: rows and pages add up, where the child did not clear. -/
theorem appendFrom_level (childLevel : LevelSound relation child (parent :: outer))
    (parentLevel : LevelSound (child.clearedRelation.getD relation) parent outer) :
    LevelSound relation (parent.appendFrom child) outer := by
  have baseLevel := absorbClear_level childLevel parentLevel
  have clears : child.cleared = true → (parent.absorbClear child).blocks = [] ∧
      (parent.absorbClear child).cleared = true := by
    intro cleared
    obtain ⟨first, absorbed⟩ := @absorbClear_of_cleared parent child cleared
    rw [absorbed]
    exact ⟨rfl, rfl⟩
  have apart : ∀ block ∈ child.blocks, block ∉ (parent.absorbClear child).blocks := by
    intro block own shared
    cases cleared : child.cleared with
    | true => simp [(clears cleared).1] at shared
    | false =>
      rw [absorbClear_of_uncleared cleared] at shared
      exact childLevel.apart cleared block own (mem_blocks_cons.mpr (.inl shared))
  generalize based : parent.absorbClear child = base at baseLevel clears apart
  have pages : (parent.appendFrom child).pendingPages = base.pendingPages ++ child.pendingPages := by
    simp [appendFrom, based]
  have blocks : (parent.appendFrom child).blocks = base.blocks ++ child.blocks := by
    simp [blocks, pages]
  have rows := pendingRow_append pages
  refine ⟨baseLevel.sound, ?_, ?_, ?_, ?_, ?_, ?_, ?_⟩
  · rw [blocks, nodup_append]
    refine ⟨baseLevel.distinct, childLevel.distinct, ?_⟩
    rintro a shared b own rfl
    exact apart a own shared
  · intro block mem
    rw [blocks] at mem
    cases mem_append.mp mem with
    | inl shared => exact baseLevel.unfiled block shared
    | inr own => exact childLevel.unfiled block own
  · intro block mem
    rw [blocks] at mem
    cases mem_append.mp mem with
    | inl shared => exact baseLevel.below block shared
    | inr own => exact childLevel.below block own
  · intro tid entry found
    rw [rows] at found
    split at found
    · exact childLevel.pending tid entry found
    · exact baseLevel.pending tid entry found
  · intro tid mem
    simp only [appendFrom, based, mem_pushAll] at mem
    unfold Placed
    rw [rows]
    cases mem with
    | inl shared =>
      cases baseLevel.placed tid shared with
      | inr stored => exact .inr stored
      | inl paged =>
        obtain ⟨entry, found⟩ := isSome_iff_exists.mp paged
        have outside : tid.block ∉ child.blocks := fun own =>
          apart _ own (mem_blocks_of_pendingRow found)
        rw [if_neg outside]
        exact .inl paged
    | inr own =>
      cases childLevel.placed tid own with
      | inr stored => exact .inr stored
      | inl paged =>
        obtain ⟨entry, found⟩ := isSome_iff_exists.mp paged
        rw [if_pos (mem_blocks_of_pendingRow found)]
        exact .inl paged
  · intro uncleared block mem
    have free : base.cleared = false := based ▸ uncleared
    rw [blocks] at mem
    cases mem_append.mp mem with
    | inl shared => exact baseLevel.apart free block shared
    | inr own =>
      have childFree : child.cleared = false := by
        cases cleared : child.cleared with
        | false => rfl
        | true => simp [(clears cleared).2] at free
      rw [← based, absorbClear_of_uncleared childFree] at free
      intro outside
      exact childLevel.apart childFree block own
        (mem_blocks_cons.mpr (.inr ⟨free, outside⟩))
  · intro untaken
    simp only [appendFrom, based, or_eq_none_iff] at untaken
    simp only [appendFrom, based, baseLevel.checkpointed untaken.1,
      childLevel.checkpointed untaken.2, foldl_nil]

/-- The relation a merged level goes back to: the one its parent or child saved. -/
theorem appendFrom_clearedRelation (parent child : RelationOverlay) :
    (parent.appendFrom child).clearedRelation =
      parent.clearedRelation.or (child.clearedRelation.map parent.restoreRelationSnapshot) := by
  change (parent.absorbClear child).clearedRelation = _
  unfold absorbClear
  cases child.clearedRelation with
  | none => simp
  | some snapshot =>
    cases earlier : parent.clearedRelation with
    | some first => simp [dropRows, earlier]
    | none => rfl

end Release

end RelationOverlay

namespace Local

variable {relation : RelationStorage} {outer : Overlays}

theorem release_stack {parent child : RelationOverlay}
    (stack : StackSound relation (child :: parent :: outer)) :
    StackSound relation (parent.appendFrom child :: outer) := by
  obtain ⟨childLevel, inner⟩ := stack
  refine ⟨appendFrom_level childLevel inner.1, ?_⟩
  have tail := inner.2
  rw [appendFrom_clearedRelation]
  cases earlier : parent.clearedRelation with
  | some first =>
    rw [earlier] at tail
    exact tail
  | none =>
    rw [earlier] at tail
    cases cleared : child.clearedRelation with
    | none => simpa [cleared] using tail
    | some snapshot =>
      rw [cleared] at inner tail
      have kills := restoreRelationSnapshot_kills (StackSound.sound inner)
        inner.1.checkpointed
      exact StackSound.keeps tail (kills.keeps tail)

/-- Releasing a level keeps the blocks and rows of the segment. -/
theorem release_segment {parent child : RelationOverlay} {outer : Overlays} :
    (∀ block, block ∈ Overlays.blocks (parent.appendFrom child :: outer) ↔
      block ∈ Overlays.blocks (child :: parent :: outer)) ∧
    ∀ tid, tid ∈ Overlays.inserted (parent.appendFrom child :: outer) ↔
      tid ∈ Overlays.inserted (child :: parent :: outer) := by
  simp only [Overlays.mem_blocks_cons, Overlays.mem_inserted_cons]
  cases cleared : child.cleared with
  | true =>
    obtain ⟨first, absorbed⟩ := @RelationOverlay.absorbClear_of_cleared parent child cleared
    simp [RelationOverlay.blocks, RelationOverlay.appendFrom, absorbed, RelationOverlay.dropRows,
      RelationOverlay.cleared]
  | false =>
    obtain ⟨pages, insertedTids, kept, -, -⟩ :=
      @RelationOverlay.appendFrom_of_uncleared parent child cleared
    have sameClear : (parent.appendFrom child).cleared = parent.cleared := by
      simp [RelationOverlay.cleared, kept]
    simp only [RelationOverlay.blocks, pages, insertedTids, sameClear, map_append,
      mem_append, mem_pushAll]
    constructor
    · intro block
      tauto
    · intro tid
      tauto

theorem mergeAll_stack {top : RelationOverlay} (stack : StackSound relation (top :: outer)) :
    StackSound relation [mergeAll top outer] := by
  induction outer generalizing top with
  | nil => exact stack
  | cons parent rest ih => exact ih (release_stack stack)

theorem mergeAll_segment {top : RelationOverlay} {outer : Overlays} :
    (∀ block, block ∈ (mergeAll top outer).blocks ↔ block ∈ blocks (top :: outer)) ∧
      ∀ tid, tid ∈ (mergeAll top outer).insertedTids ↔ tid ∈ inserted (top :: outer) := by
  induction outer generalizing top with
  | nil =>
    constructor
    · intro block
      simp [mergeAll, Overlays.blocks, Overlays.segment]
    · intro tid
      simp [mergeAll, inserted, Overlays.segment]
  | cons parent rest ih =>
    obtain ⟨blocks, rows⟩ := @ih (parent.appendFrom top)
    obtain ⟨segmentBlocks, segmentRows⟩ := @release_segment parent top rest
    exact ⟨fun block => (blocks block).trans (segmentBlocks block),
      fun tid => (rows tid).trans (segmentRows tid)⟩

end Local

/-! ## Clearing a relation -/

namespace Local

theorem replacement_row (relation : RelationStorage) (preserveTidSpace : Bool) (tid : Tid) :
    (replacement relation preserveTidSpace).row tid = none := by
  simp [RelationStorage.row, RelationStorage.page, replacement, RelationStorage.default]

theorem replacement_sound (relation : RelationStorage) (preserveTidSpace : Bool) :
    (replacement relation preserveTidSpace).Sound :=
  default_sound.congr rfl (Nat.zero_le _) rfl rfl

theorem recordRelationClear_clearedRelation (top : RelationOverlay) (relation : RelationStorage) :
    (top.recordRelationClear relation).clearedRelation =
      some (top.clearedRelation.getD (top.restoreRelationSnapshot relation)) := by
  unfold recordRelationClear
  dsimp only
  cases earlier : top.clearedRelation with
  | some first => simp [dropRows, earlier]
  | none => rfl

theorem foldl_invalidate (tids : List Tid) (overlay : RelationOverlay) :
    tids.foldl invalidate overlay =
      { overlay with invalidatedTids := pushAll overlay.invalidatedTids tids } := by
  induction tids generalizing overlay with
  | nil => rfl
  | cons tid rest ih => exact ih (overlay.invalidate tid)

theorem foldl_deletePrimaryKey (keys : List IndexKey) (overlay : RelationOverlay) :
    keys.foldl deletePrimaryKey overlay =
      { overlay with primaryKeyDeletes := pushAll overlay.primaryKeyDeletes keys } := by
  induction keys generalizing overlay with
  | nil => rfl
  | cons key rest ih => exact ih (overlay.deletePrimaryKey key)

/-- The innermost level after a clear: it keeps its notes and invalidates what
    was seen. -/
def clearedLevel (relation : RelationStorage) (top : RelationOverlay) (outer : Overlays)
    (keys : List IndexKey) : RelationOverlay :=
  { top.dropRows with
    invalidatedTids := pushAll top.invalidatedTids (relation.visibleTids (top :: outer))
    primaryKeyDeletes := pushAll top.primaryKeyDeletes keys
    clearedRelation := some (top.clearedRelation.getD (top.restoreRelationSnapshot relation)) }

variable {relation : RelationStorage}

theorem clear_level (relation : RelationStorage) (top : RelationOverlay) (outer : Overlays)
    (catalog : RelationCatalog) (preserveTidSpace : Bool) :
    ∃ keys, clear ⟨relation, top :: outer⟩ catalog preserveTidSpace =
      ⟨replacement relation preserveTidSpace, clearedLevel relation top outer keys :: outer⟩ := by
  have recorded : top.recordRelationClear relation = { top.dropRows with
      clearedRelation := some (top.clearedRelation.getD (top.restoreRelationSnapshot relation)) } := by
    rw [← recordRelationClear_clearedRelation]
    unfold recordRelationClear
    dsimp only
    split <;> rfl
  refine ⟨clearedKeys ⟨relation, top :: outer⟩ catalog (relation.visibleTids (top :: outer)), ?_⟩
  rw [clear]
  dsimp only
  rw [foldl_deletePrimaryKey, foldl_invalidate, recorded]
  rfl

/-- The innermost level after a clear: no rows of its own, and the relation as
    it was before the first clear. -/
theorem clear_spec {top : RelationOverlay} {outer : Overlays} (catalog : RelationCatalog)
    (preserveTidSpace : Bool) (stack : StackSound relation (top :: outer)) :
    ∃ top', clear ⟨relation, top :: outer⟩ catalog preserveTidSpace =
        ⟨replacement relation preserveTidSpace, top' :: outer⟩ ∧
      StackSound (replacement relation preserveTidSpace) (top' :: outer) ∧
      top'.clearedRelation =
        some (top.clearedRelation.getD (top.restoreRelationSnapshot relation)) ∧
      top'.blocks = [] ∧ top'.insertedTids = [] := by
  obtain ⟨keys, cleared⟩ := clear_level relation top outer catalog preserveTidSpace
  have blocks : (clearedLevel relation top outer keys).blocks = [] := rfl
  have inserted : (clearedLevel relation top outer keys).insertedTids = [] := rfl
  refine ⟨_, cleared, ⟨⟨replacement_sound _ _, by simp [blocks], by simp [blocks], by simp [blocks],
    ?_, by simp [inserted], by simp [blocks], stack.1.checkpointed⟩, ?_⟩, rfl, blocks, inserted⟩
  · intro tid entry found
    have := mem_blocks_of_pendingRow found
    rw [blocks] at this
    cases this
  · simp only [clearedLevel]
    cases earlier : top.clearedRelation with
    | some first =>
      have tail := stack.2
      rw [earlier] at tail
      exact tail
    | none =>
      have uncleared : top.cleared = false := by simp [RelationOverlay.cleared, earlier]
      have tail := stack.outer uncleared
      have kills := restoreRelationSnapshot_kills stack.sound stack.1.checkpointed
      exact tail.keeps (kills.keeps tail)

/-! ## Committing -/

/-- What a commit does to the relation, as far as other sessions are concerned. -/
structure Commits (here : Local) (relation' : RelationStorage) : Prop where
  sound : relation'.Sound
  frontier : here.relation.nextBlock ≤ relation'.nextBlock
  rows : ∀ tid, (here.relation.row tid).isSome → (relation'.row tid).isSome
  filed : ∀ block, relation'.physical block → here.relation.physical block ∨
    here.relation.nextBlock ≤ block ∨ block ∈ Overlays.blocks here.overlays
  live : ∀ tid bytes, relation'.row tid = some (.live, bytes) →
    here.relation.row tid = some (.live, bytes) ∨ tid ∈ Overlays.inserted here.overlays ∨
      (here.relation.row tid = none ∧ (here.relation.physical tid.block ∨
        here.relation.nextBlock ≤ tid.block ∨ tid.block ∈ Overlays.blocks here.overlays))

variable {overlay : RelationOverlay} {relation' : RelationStorage}

theorem appliedRow_live {tid : Tid} {row : Option (LinePointerState × Bytes)} {bytes : Bytes}
    (found : appliedRow overlay tid row = some (.live, bytes)) :
    row = some (.live, bytes) ∨ (row = some (.pending, bytes) ∧ tid ∈ overlay.insertedTids) := by
  unfold appliedRow at found
  dsimp only at found
  cases row with
  | none => simp at found
  | some entry =>
    obtain ⟨state, stored⟩ := entry
    split at found
    · simp only [map_eq_some_iff, kill, Prod.mk.injEq] at found
      obtain ⟨_, _, impossible, _⟩ := found
      cases impossible
    · split at found
      · rename_i mem
        cases state with
        | pending =>
          simp only [map_some, settle, if_true, some.injEq, Prod.mk.injEq,
            true_and] at found
          exact .inr ⟨by rw [found], mem⟩
        | live => exact .inl found
        | dead => cases found
      · exact .inl found

theorem appliedRow_isSome (overlay : RelationOverlay) (tid : Tid)
    (row : Option (LinePointerState × Bytes)) : (appliedRow overlay tid row).isSome = row.isSome := by
  unfold appliedRow
  dsimp only
  split <;> split <;> simp

theorem mem_remapped {remaps : List (Tid × Tid)} {tid : Tid}
    (mem : tid ∈ (overlay.remapTids remaps).insertedTids) :
    tid ∈ overlay.insertedTids ∨ ∃ old, (old, tid) ∈ remaps := by
  obtain ⟨old, own, renamed⟩ := mem_map.mp mem
  unfold remapTid at renamed
  cases found : lookup remaps old with
  | none =>
    rw [found] at renamed
    exact .inl (renamed ▸ own)
  | some new =>
    rw [found] at renamed
    exact .inr ⟨old, renamed ▸ mem_of_lookup found⟩

theorem commitOverlay_commits (level : LevelSound relation overlay [])
    (h : commitOverlay relation overlay = some relation') :
    Commits ⟨relation, [overlay]⟩ relation' := by
  unfold commitOverlay at h
  cases pages : overlay.pendingPages.foldlM (publishPage overlay) (relation, []) with
  | none => simp [pages] at h
  | some state =>
    obtain ⟨relation₁, remaps⟩ := state
    simp only [pages, bind_eq_bind, bind_some, some.injEq] at h
    subst h
    obtain ⟨kept, done, published, -⟩ := published_of_commit level pages
    obtain ⟨rows, sound, frontier, physical, -⟩ :=
      publishChanges_spec (overlay.remapTids remaps) relation₁
    have own : ∀ page ∈ kept, page.block ∈ blocks [overlay] := by
      intro page mem
      refine mem_blocks_cons.mpr (.inl ?_)
      exact mem_map.mpr ⟨page, (published.keptFiled page mem).1, rfl⟩
    refine ⟨sound published.sound, published.frontier.trans frontier.ge, ?_, ?_, ?_⟩
    · intro tid found
      obtain ⟨entry, stored⟩ := isSome_iff_exists.mp found
      rw [rows, appliedRow_isSome, published.old tid entry stored]
      rfl
    · intro block paged
      rcases published.filed block ((physical block).mp paged) with old | beyond | ⟨page, mem, named⟩
      · exact .inl old
      · exact .inr (.inl beyond)
      · exact .inr (.inr (named ▸ own page mem))
    · intro tid bytes found
      rw [rows] at found
      cases appliedRow_live found with
      | inl live =>
        rcases published.sourced tid _ live with old | ⟨page, mem, named, stored⟩ | ⟨old, moved⟩
        · exact .inl old
        · have owned := (published.keptFiled page mem).1
          rw [← pendingRow_of_mem level.distinct owned named] at stored
          cases level.pending _ _ stored
        · obtain ⟨-, _, -, stored⟩ := published.moved old tid moved
          rw [live] at stored
          cases stored
      | inr inserted =>
        cases mem_remapped inserted.2 with
        | inl owned =>
          exact .inr (.inl (mem_inserted_cons.mpr (.inl owned)))
        | inr remapped =>
          obtain ⟨old, moved⟩ := remapped
          obtain ⟨absent, -, place⟩ := published.fresh old tid moved
          refine .inr (.inr ⟨absent, ?_⟩)
          rcases place with paged | beyond | ⟨page, mem, named⟩
          · exact .inl paged
          · exact .inr (.inl beyond)
          · exact .inr (.inr (named ▸ own page mem))

theorem commitAll_commits {here : Local} (stack : StackSound here.relation here.overlays)
    (h : here.commitAll = some relation') :
    Commits here relation' := by
  obtain ⟨relation, overlays⟩ := here
  cases overlays with
  | nil =>
    cases h
    exact ⟨stack, le_rfl, fun _ => id, fun _ => .inl, fun _ _ => .inl⟩
  | cons top outer =>
    have merged := mergeAll_stack stack
    obtain ⟨blocks, rows⟩ := @mergeAll_segment top outer
    have commits := commitOverlay_commits merged.1 h
    have sameBlocks : ∀ block, block ∈ Overlays.blocks [mergeAll top outer] ↔
        block ∈ Overlays.blocks (top :: outer) := by
      intro block
      rw [← blocks]
      simp [Overlays.blocks, Overlays.segment]
    have sameRows : ∀ tid, tid ∈ Overlays.inserted [mergeAll top outer] ↔
        tid ∈ Overlays.inserted (top :: outer) := by
      intro tid
      rw [← rows]
      simp [Overlays.inserted, Overlays.segment]
    refine ⟨commits.sound, commits.frontier, commits.rows, ?_, ?_⟩
    · intro block paged
      have filed := commits.filed block paged
      rwa [sameBlocks] at filed
    · intro tid bytes found
      have live := commits.live tid bytes found
      rwa [sameBlocks, sameRows] at live

end Local

end FastPg.Storage
