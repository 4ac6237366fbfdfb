import FastPg.Storage.Written
import FastPg.Storage.Scan

/-! # Block and line numbers

Blocks are numbered in 32 bits and lines from one in eleven; the last block
number is never given out. A scan stands on the rows of a level and on the roots
of HOT chains, so their tids have a line. Row operations, transactions, clears
and copies keep all of this.
-/

namespace FastPg.Storage

open Assoc Transition Option RelationStorage RelationOverlay OrdSet
open List hiding insert lookup

/-- The block numbers and line counts of a relation fit. -/
structure RelationStorage.Sized (relation : RelationStorage) : Prop where
  frontier : relation.nextBlock ≤ maxBlock
  blocks : relation.pages.length ≤ maxBlock
  lines : ∀ block page, relation.page block = some page → page.linePointers.length ≤ maxCtidOffset

/-- HOT chains begin on lines. -/
structure RelationStorage.Rooted (relation : RelationStorage) : Prop where
  sources : ∀ entry ∈ relation.hotRedirects, 0 < entry.1.offset
  heads : ∀ entry ∈ relation.hotRedirectTargetRoots, 0 < entry.2.offset
  roots : ∀ tid ∈ relation.hotRedirectRoots, 0 < tid.offset

structure RelationStorage.Numbered (relation : RelationStorage) : Prop where
  sized : relation.Sized
  rooted : relation.Rooted

structure RelationOverlay.Sized (overlay : RelationOverlay) : Prop where
  pages : ∀ page ∈ overlay.pendingPages,
    page.block < maxBlock ∧ page.linePointers.length ≤ maxCtidOffset
  checkpoint : ∀ checkpoint ∈ overlay.relationCheckpoint, checkpoint.nextBlock ≤ maxBlock

structure RelationOverlay.Rooted (overlay : RelationOverlay) : Prop where
  inserted : ∀ tid ∈ overlay.insertedTids, 0 < tid.offset
  sources : ∀ entry ∈ overlay.hotRedirectInserts, 0 < entry.1.offset

structure RelationOverlay.Numbered (overlay : RelationOverlay) : Prop where
  sized : overlay.Sized
  rooted : overlay.Rooted
  saved : ∀ relation ∈ overlay.clearedRelation, relation.Numbered

abbrev Local.Numbered (here : Local) : Prop :=
  here.Holds RelationStorage.Numbered RelationOverlay.Numbered

/-! ## Pages -/

theorem Page.append_lines {page page' : Page} {tuple : Bytes} {state : LinePointerState}
    {result : Option Tid} (h : page.appendTupleWithState tuple state = (page', result))
    (short : page.linePointers.length ≤ maxCtidOffset) :
    page'.linePointers.length ≤ maxCtidOffset ∧ ∀ tid ∈ result, 0 < tid.offset := by
  obtain ⟨-, ⟨rfl, same, -⟩ | ⟨rfl, grown, room, -⟩⟩ := Page.appendTupleWithState_spec h
  · exact ⟨same ▸ short, fun tid placed => by cases placed⟩
  · refine ⟨by omega, fun tid placed => ?_⟩
    cases placed
    exact Nat.succ_pos _

namespace RelationStorage

variable {relation relation' : RelationStorage} {block : Nat} {a b : RelationStorage}

theorem Sized.congr (sized : b.Sized) (pages : a.pages = b.pages)
    (frontier : a.nextBlock = b.nextBlock) : a.Sized where
  frontier := frontier ▸ sized.frontier
  blocks := pages ▸ sized.blocks
  lines := by
    unfold page
    rw [pages]
    exact sized.lines

theorem Sized.modifyPage {f : Page → Page} {keeps : ∀ page, (f page).block = page.block}
    (sized : relation.Sized) (short : ∀ page, page.linePointers.length ≤ maxCtidOffset →
      (f page).linePointers.length ≤ maxCtidOffset) : (relation.modifyPage block f keeps).Sized where
  frontier := sized.frontier
  blocks := by
    unfold RelationStorage.modifyPage
    rw [length_modify]
    exact sized.blocks
  lines := by
    intro other page found
    rw [page_modifyPage] at found
    split at found
    · obtain ⟨old, stored, rfl⟩ := map_eq_some_iff.mp found
      exact short old (sized.lines other old stored)
    · exact sized.lines other page found

theorem Sized.insertPage {page : Page} (sized : relation.Sized) (small : page.block < maxBlock)
    (short : page.linePointers.length ≤ maxCtidOffset) : (relation.insertPage page).Sized where
  frontier := sized.frontier
  blocks := by
    have before := sized.blocks
    change List.length (set _ _ _) ≤ _
    rw [length_set, length_append, length_replicate]
    omega
  lines := by
    intro other filed found
    rw [page_insertPage] at found
    split at found
    · cases found
      exact short
    · exact sized.lines other filed found

theorem Sized.reserveBlock (sized : relation.Sized)
    (h : relation.reserveBlock = some (relation', block)) : relation'.Sized ∧ block < maxBlock := by
  unfold RelationStorage.reserveBlock at h
  split at h
  · rename_i room
    cases h
    have small : relation.nextBlock + 1 ≤ maxBlock := Nat.le_pred_of_lt room
    exact ⟨⟨small, sized.blocks, sized.lines⟩, small⟩
  · cases h

theorem Sized.appendTargetBlock {tupleLen : Nat} {result : Option Nat} (sized : relation.Sized)
    (h : relation.appendTargetBlock tupleLen = (relation', result)) : relation'.Sized := by
  unfold RelationStorage.appendTargetBlock at h
  split at h
  · cases h
    exact sized
  · split at h
    · cases h
      exact sized.congr rfl rfl
    · split at h
      · cases h
        exact sized
      · rename_i reserved
        cases h
        obtain ⟨raised, small⟩ := sized.reserveBlock reserved
        exact raised.insertPage small (Nat.zero_le _)

theorem Sized.appendPendingTuple {tuple : Bytes} {result : Option Tid} (sized : relation.Sized)
    (h : relation.appendPendingTuple block tuple = (relation', result)) :
    relation'.Sized ∧ ∀ tid ∈ result, 0 < tid.offset := by
  unfold RelationStorage.appendPendingTuple at h
  have appended : (relation.modifyPage block
      (fun page => (page.appendTupleWithState tuple .pending).1)
      (append_keeps_block tuple .pending)).Sized :=
    sized.modifyPage fun page short => (Page.append_lines (Prod.eta _).symm short).1
  split at h
  · cases h
    exact ⟨sized, fun tid placed => by cases placed⟩
  · rename_i page found
    dsimp only at h
    split at h
    · cases h
      exact ⟨appended, fun tid placed => by cases placed⟩
    · rename_i result
      cases h
      refine ⟨appended.congr rfl rfl, fun tid placed => ?_⟩
      exact (Page.append_lines result (sized.lines block page found)).2 tid placed

theorem Sized.marked {tid : Tid} {goes : LinePointerState → LinePointerState}
    (sized : relation.Sized) (marked : relation.Marked tid goes relation') : relation'.Sized := by
  cases marked with
  | same => exact sized
  | @moves _ _ _ f _ _ paged pages maps =>
    have moved : (relation.modifyPage tid.block f fun page => (paged page).kept.1).Sized :=
      sized.modifyPage fun page short => by rwa [(paged page).kept.2]
    exact moved.congr pages maps.nextBlock

theorem Sized.stamps (sized : relation.Sized) (stamps : relation.Stamps relation') :
    relation'.Sized := by
  cases stamps with
  | none => exact sized
  | page keeps => exact sized.modifyPage fun page short => by rwa [keeps.lines]

/-- Back to a checkpoint, from as many pages. -/
theorem Sized.raise {frontier : Nat} (sized : relation.Sized) (small : frontier ≤ maxBlock)
    (raised : relation'.nextBlock = max (max relation.nextBlock frontier) relation.pages.length)
    (pages : relation'.pages = relation.pages) : relation'.Sized := by
  have first := sized.frontier
  have last := sized.blocks
  refine Sized.congr (b := { relation with nextBlock := relation'.nextBlock })
    ⟨?_, sized.blocks, sized.lines⟩ pages rfl
  dsimp only
  omega

theorem Sized.restoreRollbackMetadata {checkpoint : RelationCheckpoint} (sized : relation.Sized)
    (small : checkpoint.nextBlock ≤ maxBlock) :
    (relation.restoreRollbackMetadataPreservingTidSpace checkpoint).Sized := by
  refine sized.raise small ?_ ?_
  · unfold restoreRollbackMetadataPreservingTidSpace
    dsimp only
    split <;> rfl
  · unfold restoreRollbackMetadataPreservingTidSpace
    dsimp only
    split <;> rfl

/-! ## Chains -/

theorem Rooted.congr (rooted : b.Rooted) (same : SameLinks a b) : a.Rooted where
  sources := same.hotRedirects ▸ rooted.sources
  heads := same.hotRedirectTargetRoots ▸ rooted.heads
  roots := same.hotRedirectRoots ▸ rooted.roots

theorem Rooted.insertHotRedirect {old : Tid} (rooted : relation.Rooted) (line : 0 < old.offset)
    (new : Tid) : (relation.insertHotRedirect old new).Rooted := by
  have root : 0 < ((lookup relation.hotRedirectTargetRoots old).getD old).offset := by
    cases found : lookup relation.hotRedirectTargetRoots old with
    | none => exact line
    | some root => exact rooted.heads _ (mem_of_lookup found)
  constructor
  · intro entry mem
    rcases mem_upsert mem with rfl | before
    · exact line
    · exact rooted.sources entry before
  · intro entry mem
    rcases mem_upsert mem with rfl | before
    · exact root
    · split at before
      · exact rooted.heads entry (mem_filter.mp before).1
      · exact rooted.heads entry before
  · intro tid mem
    rcases mem_insert.mp mem with rfl | before
    · exact root
    · exact rooted.roots tid before

theorem Rooted.insertHotRedirects {entries : List (Tid × Tid)} (rooted : relation.Rooted)
    (lines : ∀ entry ∈ entries, 0 < entry.1.offset) :
    (entries.foldl (fun relation entry => relation.insertHotRedirect entry.1 entry.2)
      relation).Rooted := by
  induction entries generalizing relation with
  | nil => exact rooted
  | cons entry rest ih =>
    exact ih (rooted.insertHotRedirect (lines entry (.head _)) entry.2)
      fun other mem => lines other (.tail _ mem)

/-- A lookup compresses redirects that exist. -/
theorem Rooted.compress (rooted : relation.Rooted) (levels : Overlays) (tid : Tid) :
    (relation.resolveTidRedirectCompress levels tid).1.Rooted := by
  unfold resolveTidRedirectCompress
  dsimp only
  split
  · generalize Redirect.Trail.final _ = final
    have lines : ∀ visited ∈ (Redirect.walk (Overlays.tidRedirect levels)
        (lookup relation.hotRedirects) maxHotRedirectHops false [] tid).visited, 0 < visited.offset := by
      intro visited mem
      have hop := Redirect.walk_visited _ _ _ _ _ _ (fun _ none_ => by cases none_) visited mem
      obtain ⟨next, found⟩ := isSome_iff_exists.mp hop
      exact rooted.sources _ (mem_of_lookup found)
    generalize (Redirect.Trail.visited _) = visited at lines ⊢
    have sources : ∀ entry ∈ (visited.filter (· ≠ final)).map fun visited => (visited, final),
        0 < entry.1.offset := by
      intro entry mem
      obtain ⟨source, among, rfl⟩ := mem_map.mp mem
      exact lines source (mem_filter.mp among).1
    have inserted := rooted.insertHotRedirects sources
    rwa [foldl_map] at inserted
  · exact rooted

end RelationStorage

/-! ## Levels -/

namespace RelationOverlay

variable {overlay overlay' : RelationOverlay} {a b : RelationOverlay} {result : Option Tid}

theorem Numbered.empty : Numbered {} := by
  refine ⟨⟨?_, ?_⟩, ⟨?_, ?_⟩, ?_⟩ <;> simp

theorem Sized.congr (sized : b.Sized) (pages : a.pendingPages = b.pendingPages)
    (checkpoint : a.relationCheckpoint = b.relationCheckpoint) : a.Sized :=
  ⟨pages ▸ sized.pages, checkpoint ▸ sized.checkpoint⟩

theorem Numbered.congr (numbered : b.Numbered) (same : SamePages a b)
    (sources : ∀ entry ∈ a.hotRedirectInserts, 0 < entry.1.offset) : a.Numbered where
  sized := numbered.sized.congr same.pendingPages same.relationCheckpoint
  rooted := ⟨same.insertedTids ▸ numbered.rooted.inserted, sources⟩
  saved := same.clearedRelation ▸ numbered.saved

/-- A change to the first of the own pages that satisfies a condition. -/
theorem Sized.updateFirst {p : Page → Bool} {f : Page → Page} {pages : List Page}
    (sized : ∀ page ∈ pages, page.block < maxBlock ∧ page.linePointers.length ≤ maxCtidOffset)
    (keeps : ∀ page, (f page).block = page.block)
    (short : ∀ page, page.linePointers.length ≤ maxCtidOffset →
      (f page).linePointers.length ≤ maxCtidOffset) :
    ∀ page ∈ updateFirst p f pages,
      page.block < maxBlock ∧ page.linePointers.length ≤ maxCtidOffset := by
  induction pages with
  | nil => exact sized
  | cons first rest ih =>
    have later := ih fun page mem => sized page (.tail _ mem)
    obtain ⟨small, lines⟩ := sized first (mem_cons_self ..)
    intro page mem
    unfold Storage.updateFirst at mem
    split at mem
    · rcases mem_cons.mp mem with rfl | behind
      · exact ⟨keeps first ▸ small, short first lines⟩
      · exact sized page (.tail _ behind)
    · rcases mem_cons.mp mem with rfl | behind
      · exact ⟨small, lines⟩
      · exact later page behind

theorem Sized.modifyPendingPage {tid : Tid} {f : Page → Page} (sized : overlay.Sized)
    (h : overlay.modifyPendingPage tid f = some overlay') (keeps : ∀ page, (f page).block = page.block)
    (short : ∀ page, page.linePointers.length ≤ maxCtidOffset →
      (f page).linePointers.length ≤ maxCtidOffset) : overlay'.Sized := by
  obtain ⟨line, -, rfl⟩ := map_eq_some_iff.mp h
  refine ⟨fun page mem => ?_, sized.checkpoint⟩
  exact Sized.updateFirst (fun page mem => sized.pages page (mem_reverse.mp mem)) keeps short
    page (mem_reverse.mp mem)

theorem Sized.appendExisting {tuple : Bytes} {maxTuples : Option Nat} (sized : overlay.Sized)
    (h : overlay.appendPendingTupleToExistingPage tuple maxTuples = (overlay', result)) :
    overlay'.Sized := by
  unfold appendPendingTupleToExistingPage at h
  dsimp only at h
  split at h
  · cases h
    exact sized
  · cases h
    refine ⟨fun page mem => ?_, sized.checkpoint⟩
    exact Sized.updateFirst (fun page mem => sized.pages page (mem_reverse.mp mem))
      (append_keeps_block tuple .pending)
      (fun page short => (Page.append_lines (Prod.eta _).symm short).1) page (mem_reverse.mp mem)

theorem Sized.appendNew {block : Nat} {tuple : Bytes} (sized : overlay.Sized)
    (small : block < maxBlock)
    (h : overlay.appendPendingTupleToNewPage (Page.new block tuple.length) tuple = (overlay', result)) :
    overlay'.Sized := by
  unfold appendPendingTupleToNewPage at h
  split at h
  · cases h
    exact sized
  · rename_i filled
    cases h
    refine ⟨fun page mem => ?_, sized.checkpoint⟩
    rcases mem_append.mp mem with before | last
    · exact sized.pages page before
    · rw [mem_singleton.mp last]
      have lines := (Page.append_lines filled (Nat.zero_le _)).1
      have same := (Page.appendTupleWithState_spec filled).1
      exact ⟨by rw [same]; exact small, lines⟩

end RelationOverlay

/-! ## Row operations -/

/-- A row that was placed is on a line. -/
theorem Places.line {tuple : Bytes} {tid : Tid} {relation relation' : RelationStorage}
    {top top' : RelationOverlay}
    (places : Places tuple (some tid) relation relation' top top') : 0 < tid.offset := by
  rcases places.stored with ⟨-, pages⟩ | ⟨-, rows⟩
  · have here := pages tid
    rw [if_pos rfl] at here
    exact offset_pos_of_pendingRow here
  · have here := rows tid
    rw [if_pos rfl] at here
    exact offset_pos_of_row here

namespace Local

variable {catalog : RelationCatalog} {here here' : Local} {relation relation' : RelationStorage}
  {top top' : RelationOverlay} {tuple : Bytes} {result : Option Tid} {outer : Overlays}

theorem AppendStep.sized (step : AppendStep tuple result relation top relation' top')
    (stored : relation.Sized) (level : top.Sized) : relation'.Sized ∧ top'.Sized := by
  -- Claiming a row changes no page.
  have claimed : ∀ {level : RelationOverlay}, level.Sized → (level.claim result).Sized := by
    intro level sized
    cases result <;> exact sized.congr rfl rfl
  cases step with
  | existing appended => exact ⟨stored, claimed (level.appendExisting appended)⟩
  | target chosen =>
    refine ⟨stored.appendTargetBlock chosen, level.pages, fun checkpoint taken => ?_⟩
    rcases or_eq_some_iff.mp taken with before | ⟨-, now⟩
    · exact level.checkpoint checkpoint before
    · cases now
      exact stored.frontier
  | page => exact ⟨stored, level.congr rfl rfl⟩
  | shared appended => exact ⟨(stored.appendPendingTuple appended).1, claimed level⟩
  | reserved reservation appended =>
    obtain ⟨raised, small⟩ := stored.reserveBlock reservation
    exact ⟨raised.congr rfl rfl, claimed (level.appendNew small appended)⟩

theorem AppendSteps.sized (steps : AppendSteps tuple result relation top relation' top')
    (stored : relation.Sized) (level : top.Sized) : relation'.Sized ∧ top'.Sized := by
  induction steps with
  | nil => exact ⟨stored, level⟩
  | cons first _ ih =>
    obtain ⟨stored, level⟩ := first.sized stored level
    exact ih stored level
  | last step => exact step.sized stored level

theorem Numbered.append (numbered : here.Numbered) (stack : StackSound here.relation here.overlays)
    (appended : here.appendPendingTuple catalog tuple = (here', result)) : here'.Numbered := by
  obtain ⟨top, top', outer, levels, levels', steps⟩ := appendPendingTuple_steps appended
  have opened := (Writes.start stack).stack
  rw [ensureTransaction_relation, levels] at opened
  have places := steps.places opened
  have started := numbered.opened .empty levels
  have level := started.levels top (mem_cons_self ..)
  have sized := steps.sized numbered.relation.sized level.sized
  have line : ∀ tid ∈ top'.insertedTids, 0 < tid.offset := by
    intro tid mem
    rcases places.mem_inserted.mp mem with before | rfl
    · exact level.rooted.inserted tid before
    · exact places.line
  have next := started.withTop ⟨sized.1, numbered.relation.rooted.congr places.links⟩
    ⟨sized.2, ⟨line, places.notes.hotRedirectInserts ▸ level.rooted.sources⟩,
      places.notes.clearedRelation ▸ level.saved⟩
  rwa [← levels'] at next

theorem Numbered.compress (numbered : here.Numbered) (compressed : Compress here here') :
    here'.Numbered := by
  cases compressed with
  | hot levels tid resolves =>
    have same := resolveTidRedirectCompress_same here.relation levels tid
    exact ⟨⟨numbered.relation.sized.congr same.pages same.nextBlock,
      numbered.relation.rooted.compress levels tid⟩, numbered.levels⟩
  | update levels tid resolves =>
    have same := resolveUpdateRedirectCompress_same here.relation levels tid
    refine ⟨⟨numbered.relation.sized.congr same.pages same.nextBlock, ?_⟩, numbered.levels⟩
    have rooted := numbered.relation.rooted
    unfold resolveUpdateRedirectCompress
    dsimp only
    split
    · exact ⟨rooted.sources, rooted.heads, rooted.roots⟩
    · exact rooted

theorem Numbered.compresses (numbered : here.Numbered) (compressed : Compresses here here') :
    here'.Numbered := by
  induction compressed with
  | refl => exact numbered
  | tail _ last ih => exact ih.compress last

/-- Stamps change no block and no line. -/
theorem Stamps.numbered (stamps : Stamps here here') (numbered : here.Numbered) : here'.Numbered := by
  cases stamps with
  | @own relation top _ _ _ _ keeps stamped =>
    have level := numbered.levels top (mem_cons_self ..)
    have sized := level.sized.modifyPendingPage stamped keeps.block fun page short =>
      keeps.lines page ▸ short
    obtain ⟨line, -, rfl⟩ := map_eq_some_iff.mp stamped
    exact numbered.withTop numbered.relation
      ⟨sized, ⟨level.rooted.inserted, level.rooted.sources⟩, level.saved⟩
  | shared stamped =>
    exact ⟨⟨numbered.relation.sized.stamps stamped, numbered.relation.rooted.congr stamped.same.2.2⟩,
      numbered.levels⟩

theorem Edit.numbered (edit : Edit catalog here here') (numbered : here.Numbered)
    (stack : StackSound here.relation here.overlays) : here'.Numbered := by
  cases edit with
  | start => exact numbered.start .empty
  | compress compressed => exact numbered.compress compressed
  | limit maxTuples =>
    exact ⟨⟨numbered.relation.sized.congr rfl rfl, numbered.relation.rooted.congr ⟨rfl, rfl, rfl, rfl, rfl⟩⟩,
      numbered.levels⟩
  | append encoded appended => exact numbered.append stack appended
  | @replace _ _ old new hot encoded visible appended =>
    obtain ⟨tuple, seen⟩ := isSome_iff_exists.mp visible
    refine (numbered.append stack appended).modifyTop fun top level =>
      level.congr (replaceRow_samePages top _ _ hot) fun entry mem => ?_
    have noted : ((top.invalidate old).insertUpdateRedirect old new).hotRedirectInserts =
        top.hotRedirectInserts :=
      (insertUpdateRedirect_sameRows (top.invalidate old) old new).hotRedirectInserts
    dsimp only at mem
    split at mem
    · unfold RelationOverlay.insertHotRedirect at mem
      split at mem
      · exact level.rooted.sources entry (noted ▸ mem)
      · rcases mem_upsert mem with rfl | before
        · exact offset_pos_of_read (oldTuple_read seen)
        · exact level.rooted.sources entry (noted ▸ before)
    · exact level.rooted.sources entry (noted ▸ mem)
  | strike _ visible =>
    exact ((numbered.compresses (resolveForWrite_compresses _)).start .empty).modifyTop
      fun top level => level.congr ⟨rfl, rfl, rfl, rfl, rfl⟩ level.rooted.sources
  | stampInsert tid xid cid own =>
    exact (setInsertMetadata_stamps ..).numbered (numbered.modifyTop fun top level =>
      level.congr ⟨rfl, rfl, rfl, rfl, rfl⟩ level.rooted.sources)
  | stampXmax tid xmax => exact (setRowXmax_stamps ..).numbered numbered
  | note f same tidy =>
    exact numbered.modifyTop fun top level => level.congr (same top).toSameRows.pages
      ((same top).toSameRows.hotRedirectInserts ▸ level.rooted.sources)

/-! ## Transactions, clears and copies -/

theorem rollbackOverlay_numbered (stored : relation.Numbered) (level : top.Numbered) :
    (rollbackOverlay relation top).Numbered := by
  have dead : (top.insertedTids.foldl (fun relation tid => (relation.markDead tid).1) relation).Sized := by
    generalize top.insertedTids = tids
    induction tids generalizing relation with
    | nil => exact stored.sized
    | cons tid rest ih =>
      have marked := relation.markDead_marked tid
      exact ih ⟨stored.sized.marked marked, stored.rooted.congr marked.maps.links⟩
  have links := (markDead_rowStep.foldl_maps top.insertedTids relation).links
  unfold rollbackOverlay
  dsimp only
  generalize top.insertedTids.foldl (fun relation tid => (relation.markDead tid).1) relation = killed
    at dead links ⊢
  cases saved : top.clearedRelation with
  | some snapshot => exact level.saved snapshot saved
  | none =>
    rw [getD_none]
    cases taken : top.relationCheckpoint with
    | none => exact ⟨dead.congr rfl rfl, stored.rooted.congr ⟨links.1, links.2, links.3, links.4, links.5⟩⟩
    | some checkpoint =>
      refine ⟨Sized.restoreRollbackMetadata (dead.congr rfl rfl)
        (level.sized.checkpoint checkpoint taken), stored.rooted.congr ?_⟩
      unfold restoreRollbackMetadataPreservingTidSpace
      dsimp only
      split <;> exact ⟨links.1, links.2, links.3, links.4, links.5⟩

theorem restoreRelationSnapshot_numbered (stored : relation.Numbered) (level : top.Sized) :
    (top.restoreRelationSnapshot relation).Numbered := by
  have pages : (restorePages top.pageCheckpoints relation).Numbered := by
    generalize top.pageCheckpoints = checkpoints
    induction checkpoints generalizing relation with
    | nil => exact stored
    | cons entry rest ih =>
      refine ih ⟨?_, stored.rooted.congr ⟨rfl, rfl, rfl, rfl, rfl⟩⟩
      exact stored.sized.modifyPage fun page short => by rwa [Page.restore_length]
  unfold restoreRelationSnapshot
  dsimp only
  cases taken : top.relationCheckpoint with
  | none => exact pages
  | some checkpoint =>
    exact ⟨pages.sized.raise (level.checkpoint checkpoint taken) rfl rfl,
      pages.rooted.congr ⟨rfl, rfl, rfl, rfl, rfl⟩⟩

theorem absorbClear_numbered {parent child : RelationOverlay} (outside : parent.Numbered)
    (inside : child.Numbered) : (parent.absorbClear child).Numbered := by
  have dropped : parent.dropRows.Numbered :=
    ⟨⟨nofun, outside.sized.checkpoint⟩, ⟨nofun, outside.rooted.sources⟩, outside.saved⟩
  unfold absorbClear
  split
  · exact outside
  · rename_i snapshot taken
    split
    · exact dropped
    · refine ⟨dropped.sized.congr rfl rfl, ⟨nofun, dropped.rooted.sources⟩, fun relation saved => ?_⟩
      cases saved
      exact restoreRelationSnapshot_numbered (inside.saved snapshot taken) dropped.sized

theorem appendFrom_numbered {parent child : RelationOverlay} (outside : parent.Numbered)
    (inside : child.Numbered) : (parent.appendFrom child).Numbered := by
  have base := absorbClear_numbered outside inside
  refine ⟨⟨fun page mem => ?_, fun checkpoint taken => ?_⟩, ⟨fun tid mem => ?_, fun entry mem => ?_⟩,
    base.saved⟩
  · rcases mem_append.mp mem with before | after
    · exact base.sized.pages page before
    · exact inside.sized.pages page after
  · rcases or_eq_some_iff.mp taken with first | ⟨-, second⟩
    · exact base.sized.checkpoint checkpoint first
    · exact inside.sized.checkpoint checkpoint second
  · rcases mem_pushAll.mp mem with before | after
    · exact base.rooted.inserted tid before
    · exact inside.rooted.inserted tid after
  · rcases mem_extend mem with after | before
    · exact inside.rooted.sources entry after
    · exact base.rooted.sources entry before

/-- A relation with the renamings so far, whose new tids are on lines. -/
def PublishedLines (state : Publishing) : Prop :=
  state.1.Numbered ∧ ∀ entry ∈ state.2, 0 < entry.2.offset

variable {state state' : Publishing}

theorem publishRow_numbered {page : Page} {index : Nat} (numbered : PublishedLines state)
    (h : publishRow page state index = some state') :
    PublishedLines state' := by
  obtain ⟨relation, remaps⟩ := state
  obtain ⟨stored, lines⟩ := numbered
  unfold publishRow at h
  cases found : page.line (index + 1) with
  | none =>
    simp only [found] at h
    cases h
    exact ⟨stored, lines⟩
  | some line =>
    cases slice : page.tupleSlice (index + 1) true with
    | none =>
      simp only [found, slice] at h
      cases h
      exact ⟨stored, lines⟩
    | some tuple =>
      simp only [found, slice] at h
      cases target : relation.appendTargetBlock tuple.length with
      | mk relation₁ block =>
        have sized₁ := stored.sized.appendTargetBlock target
        have links₁ := (appendTargetBlock_links target).1
        cases block with
        | none => simp [target] at h
        | some block =>
          cases appended : relation₁.appendPendingTuple block tuple with
          | mk relation₂ result =>
            obtain ⟨sized₂, line₂⟩ := sized₁.appendPendingTuple appended
            have links₂ := (appendPendingTuple_spec appended).1.links
            cases result with
            | none => simp [target, appended] at h
            | some new =>
              have first := relation₂.setInsertMetadata_stamps new line.xmin line.cmin
              have second := (relation₂.setInsertMetadata new line.xmin line.cmin).setRowXmax_stamps
                new line.xmax
              have sized := (sized₂.stamps first).stamps second
              have rooted := stored.rooted.congr
                ((second.same.2.2.trans first.same.2.2).trans (links₂.trans links₁))
              simp only [target, appended, bind_eq_bind, bind_some,
                some.injEq] at h
              subst h
              refine ⟨?_, fun entry mem => ?_⟩
              · dsimp only
                split
                · exact ⟨sized, rooted⟩
                · refine ⟨sized.congr rfl rfl, fun entry mem => ?_, rooted.heads, rooted.roots⟩
                  rcases mem_upsert mem with rfl | before
                  · exact Nat.succ_pos index
                  · exact rooted.sources entry before
              · rcases mem_append.mp mem with before | last
                · exact lines entry before
                · rw [mem_singleton.mp last]
                  exact line₂ new rfl

theorem publishPage_numbered {page : Page} (numbered : PublishedLines state)
    (small : page.block < maxBlock) (short : page.linePointers.length ≤ maxCtidOffset)
    (h : publishPage top state page = some state') : PublishedLines state' := by
  obtain ⟨relation, remaps⟩ := state
  obtain ⟨stored, lines⟩ := numbered
  have unreserved : PublishedLines ({ relation with
      pendingReservedBlocks := relation.pendingReservedBlocks.erase page.block }, remaps) :=
    ⟨⟨stored.sized.congr rfl rfl, stored.rooted.congr ⟨rfl, rfl, rfl, rfl, rfl⟩⟩, lines⟩
  unfold publishPage at h
  dsimp only at h
  split at h
  · cases h
    exact ⟨⟨unreserved.1.sized.insertPage small short,
      unreserved.1.rooted.congr ⟨rfl, rfl, rfl, rfl, rfl⟩⟩, lines⟩
  · generalize List.range page.linePointers.length = indices at h
    generalize (({ relation with pendingReservedBlocks := _ } : RelationStorage), remaps) = start
      at h unreserved
    induction indices generalizing start with
    | nil =>
      cases h
      exact unreserved
    | cons index rest ih =>
      rw [foldlM_cons] at h
      obtain ⟨middle, first, later⟩ := bind_eq_some_iff.mp h
      exact ih middle later (publishRow_numbered unreserved first)

theorem publishInvalidation_sized (stored : relation.Sized) (tid : Tid) :
    (publishInvalidation top relation tid).Sized := by
  obtain ⟨-, same⟩ | ⟨-, _, _, same⟩ := publishInvalidation_cases top relation tid <;> rw [same]
  · exact stored
  · exact (stored.marked (relation.markDead_marked tid)).congr rfl rfl

theorem publishChanges_numbered (stored : relation.Numbered)
    (sources : ∀ entry ∈ top.hotRedirectInserts, 0 < entry.1.offset) :
    (publishChanges top relation).Numbered where
  sized := by
    have live (tids : List Tid) : (tids.foldl (fun relation tid => (relation.markLive tid).1)
        relation).Sized :=
      foldlRecOn tids _ stored.sized fun relation sized tid _ => sized.marked (relation.markLive_marked tid)
    have dead : (top.invalidatedTids.foldl (publishInvalidation top)
        (top.insertedTids.foldl (fun relation tid => (relation.markLive tid).1) relation)).Sized :=
      foldlRecOn top.invalidatedTids _ (live top.insertedTids)
        fun relation sized tid _ => publishInvalidation_sized sized tid
    have same := publishChanges_same top relation
    exact dead.congr same.pages same.nextBlock
  rooted := by
    obtain ⟨marked, before, after⟩ := publishChanges_links top relation
    have inserted := (stored.rooted.congr before).insertHotRedirects sources
    exact ⟨after.hotRedirects ▸ inserted.sources, after.hotRedirectTargetRoots ▸ inserted.heads,
      after.hotRedirectRoots ▸ inserted.roots⟩

theorem commitOverlay_numbered (stored : relation.Numbered) (level : top.Numbered)
    (h : commitOverlay relation top = some relation') : relation'.Numbered := by
  unfold commitOverlay at h
  obtain ⟨state, published, applied⟩ := bind_eq_some_iff.mp h
  cases applied
  have lines : PublishedLines state := by
    have start : PublishedLines (relation, []) := ⟨stored, by simp⟩
    have pages := level.sized.pages
    generalize top.pendingPages = pending at published pages
    generalize ((relation, []) : Publishing) = before at published start
    clear h
    induction pending generalizing before with
    | nil =>
      cases published
      exact start
    | cons page rest ih =>
      rw [foldlM_cons] at published
      obtain ⟨middle, first, later⟩ := bind_eq_some_iff.mp published
      obtain ⟨small, short⟩ := pages page (mem_cons_self ..)
      exact ih (fun other mem => pages other (.tail _ mem)) middle later
        (publishPage_numbered start small short first)
  refine publishChanges_numbered lines.1 fun entry mem => ?_
  obtain ⟨⟨old, new⟩, among, rfl⟩ := mem_map.mp mem
  change 0 < (remapTid state.2 old).offset
  unfold remapTid
  cases found : lookup state.2 old with
  | none => exact level.rooted.sources _ among
  | some renamed => exact lines.2 _ (mem_of_lookup found)

theorem replacement_numbered (stored : relation.Numbered) (preserveTidSpace : Bool) :
    (replacement relation preserveTidSpace).Numbered := by
  refine ⟨⟨?_, Nat.zero_le _, ?_⟩, ⟨?_, ?_, ?_⟩⟩
  · have small := stored.sized.frontier
    cases preserveTidSpace
    · exact Nat.zero_le _
    · exact small
  all_goals simp [replacement, RelationStorage.default, RelationStorage.page, OrdSet.empty, OrdSet.mem_def]

theorem clear_numbered (numbered : here.Numbered) (preserveTidSpace : Bool) :
    (here.clear catalog preserveTidSpace).Numbered := by
  obtain ⟨relation, overlays⟩ := here
  have fresh := replacement_numbered numbered.relation preserveTidSpace
  cases overlays with
  | nil => exact ⟨fresh, numbered.levels⟩
  | cons top outer =>
    obtain ⟨keys, cleared⟩ := clear_level relation top outer catalog preserveTidSpace
    have level := numbered.levels top (mem_cons_self ..)
    rw [cleared]
    refine numbered.withTop fresh ⟨⟨nofun, level.sized.checkpoint⟩,
      ⟨nofun, level.rooted.sources⟩, fun snapshot saved => ?_⟩
    cases saved
    cases earlier : top.clearedRelation with
    | some first => exact level.saved first earlier
    | none => exact restoreRelationSnapshot_numbered numbered.relation level.sized

end Local

/-! ## Every session -/

theorem numbered_inductive : Inductive Numbered Numbered where
  initial := by
    refine ⟨⟨Nat.zero_le _, Nat.zero_le _, ?_⟩, ⟨?_, ?_, ?_⟩⟩
    all_goals simp [RelationStorage.page, RelationStorage.default, OrdSet.empty, OrdSet.mem_def]
  empty := .empty
  edit := Local.Edit.numbered
  release := Local.appendFrom_numbered
  rollback := fun stored _ => Local.rollbackOverlay_numbered stored
  commit := fun _ => Local.commitOverlay_numbered
  clear := fun numbered _ => Local.clear_numbered numbered

theorem Engine.reaches_numbered {catalog : Catalog} {engine : Engine}
    (reached : Reaches (Engine.step catalog) Respects .initial engine) (relid : Relid)
    (sid : SessionId) : ((engine.storage.view relid).reach sid).Numbered :=
  reaches_holds reached numbered_inductive relid sid

end FastPg.Storage
