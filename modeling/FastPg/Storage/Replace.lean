import FastPg.Storage.Rollback
import FastPg.Storage.Written
import FastPg.Storage.Lossless

/-! # Replacing a relation by the rows of another

A replacement clears the relation, keeping its tid space, and copies into it
the tuples that the session sees in another relation. The copies stand past
every block used so far. What the session's levels still note about those
blocks, from before a clear that restarted the tid space, applies to the copies
as well; where they note nothing, the copies are what the session sees. The
abort of the transaction goes back to what the clear saved.
-/

namespace FastPg.Storage

open Assoc Redirect Transition Option RelationStorage RelationOverlay Overlays
open List hiding insert lookup

/-! ## Tuples that fit -/

theorem le_nextPowerOfTwo (n : Nat) : n ≤ nextPowerOfTwo n := by
  unfold nextPowerOfTwo
  split
  · assumption
  · have := Nat.lt_log2_self (n := n - 1)
    omega

theorem Encoded.short {tuple : Bytes} (encoded : Encoded tuple) : tuple.length < 2 ^ 32 := by
  obtain ⟨input, written⟩ := encoded
  obtain ⟨len, stored, -⟩ := map_eq_some_iff.mp written
  obtain ⟨-, -, readable, total, short⟩ := tupleStorageLen_eq_some stored
  rw [encodeTuple_eq_tupleBytes stored] at written
  cases written
  rw [length_tupleBytes readable, ← total]
  exact short

/-- A new page takes the tuple it was made for. -/
theorem Page.new_accepts {tuple : Bytes} (short : tuple.length < 2 ^ 32) (block : Nat)
    (state : LinePointerState) :
    ∃ page tid, (Page.new block tuple.length).appendTupleWithState tuple state = (page, some tid) := by
  have fits : tuple.length ≤ (Page.new block tuple.length).capacity :=
    (le_nextPowerOfTwo tuple.length).trans (le_max_right ..)
  have start : (Page.new block tuple.length).alignedUsed = 0 := by
    simp [Page.alignedUsed, Page.new, datumAlignment]
  have room : ¬((Page.new block tuple.length).remaining < tuple.length ∨
      maxCtidOffset ≤ (Page.new block tuple.length).linePointers.length) := by
    rw [Page.remaining, start]
    simp only [Page.new, length_nil, maxCtidOffset] at fits ⊢
    omega
  unfold Page.appendTupleWithState
  rw [if_neg room, dif_pos (by rw [start]; omega), if_pos ⟨by omega, short⟩]
  exact ⟨_, _, rfl⟩

/-! ## Copying -/

/-- Only blocks were reserved, and at most so many. -/
def Reserves (count : Nat) (before after : RelationStorage) : Prop :=
  ∃ next reserved, after = { before with nextBlock := next, pendingReservedBlocks := reserved } ∧
    before.nextBlock ≤ next ∧ next ≤ before.nextBlock + count

namespace Reserves

variable {count more : Nat} {before between after : RelationStorage}

theorem refl : Reserves count before before := ⟨_, _, rfl, le_rfl, Nat.le_add_right ..⟩

theorem trans (first : Reserves count before between) (second : Reserves more between after) :
    Reserves (count + more) before after := by
  obtain ⟨next, reserved, rfl, low, high⟩ := first
  obtain ⟨next', reserved', rfl, low', high'⟩ := second
  exact ⟨next', reserved', rfl, low.trans low', by dsimp only at high'; omega⟩

theorem low (reserves : Reserves count before after) : before.nextBlock ≤ after.nextBlock := by
  obtain ⟨next, reserved, rfl, low, -⟩ := reserves
  exact low

theorem high (reserves : Reserves count before after) :
    after.nextBlock ≤ before.nextBlock + count := by
  obtain ⟨next, reserved, rfl, -, high⟩ := reserves
  exact high

theorem row (reserves : Reserves count before after) (tid : Tid) :
    after.row tid = before.row tid := by
  obtain ⟨next, reserved, rfl, -⟩ := reserves
  rfl

end Reserves

namespace Local

variable {here here' : Local} {tuple : Bytes} {tid : Tid}

theorem appendToReservedPage_reserves (relation : RelationStorage) (top : RelationOverlay)
    (tuple : Bytes) : Reserves 1 relation (appendToReservedPage relation top tuple).1 := by
  unfold appendToReservedPage reserveBlock
  split
  · exact .refl
  · rename_i reserved block reservation
    split at reservation
    · cases reservation
      dsimp only
      split <;> exact ⟨_, _, rfl, Nat.le_succ _, le_rfl⟩
    · cases reservation

theorem appendCopy_reserves (here : Local) (tuple : Bytes) :
    Reserves 1 here.relation (here.appendCopy tuple).1.relation := by
  unfold appendCopy
  split
  · exact .refl
  · split
    · exact .refl
    · exact appendToReservedPage_reserves ..

/-- A tuple is copied where a block is left. -/
theorem appendCopy_accepts (here : Local) (short : tuple.length < 2 ^ 32)
    (room : here.relation.nextBlock + 1 < 2 ^ 32) :
    ∃ here' tid, here.appendCopy tuple = (here', some tid) := by
  obtain ⟨page, tid, filled⟩ := Page.new_accepts short here.relation.nextBlock .pending
  unfold appendCopy
  cases levels : here.ensureTransaction.overlays with
  | nil =>
    unfold ensureTransaction at levels
    split at levels <;> simp_all
  | cons top rest =>
    dsimp only
    cases top.appendPendingTupleToExistingPage tuple here.relation.maxTuplesPerBlock with
    | mk top result =>
      cases result with
      | some tid => exact ⟨_, _, rfl⟩
      | none =>
        simp only [appendToReservedPage, reserveBlock, if_pos room,
          appendPendingTupleToNewPage, filled]
        exact ⟨_, _, rfl⟩

theorem recordCopiedKey_relation (here : Local) (catalog : RelationCatalog) (tuple : Bytes)
    (tid : Tid) : (here.recordCopiedKey catalog tuple tid).relation = here.relation := by
  unfold recordCopiedKey modifyTop
  split
  · split <;> rfl
  · rfl

theorem copyTuples_reserves (catalog : RelationCatalog) (tuples : List Bytes) (here : Local) :
    Reserves tuples.length here.relation (copyTuples catalog tuples here).1.relation := by
  induction tuples generalizing here with
  | nil => exact .refl
  | cons tuple rest ih =>
    have first := here.appendCopy_reserves tuple
    rw [copyTuples, length_cons, Nat.add_comm]
    cases appended : here.appendCopy tuple with
    | mk after result =>
      rw [appended] at first
      cases result with
      | none => exact first.trans .refl
      | some tid =>
        have next := ih (after.recordCopiedKey catalog tuple tid)
        rw [recordCopiedKey_relation] at next
        exact first.trans next

end Local

/-- The primary key of a tuple, as the catalog describes it. -/
def RelationCatalog.keyOf (catalog : RelationCatalog) (tuple : Bytes) : Option IndexKey :=
  catalog.primaryIndexSpec.bind fun spec => (decodeTuple tuple).bind (indexKeyForDecoded spec)

/-- What copying leaves in the innermost level, from what it was at the start. -/
structure Copied (catalog : RelationCatalog) (floor : Nat) (start top : RelationOverlay)
    (rows : List (Tid × Bytes)) : Prop where
  notes : SameNotes { top with primaryKeyInserts := start.primaryKeyInserts } start
  inserted : top.insertedTids = rows.map Prod.fst
  distinct : (rows.map Prod.fst).Nodup
  stored : ∀ row ∈ rows, top.pendingRow row.1 = some (.pending, row.2)
  past : ∀ block ∈ top.blocks, floor ≤ block
  keys : ∀ row ∈ rows, ∀ key, catalog.keyOf row.2 = some key → ∃ found ∈ rows,
    lookup top.primaryKeyInserts key = some found.1 ∧ catalog.keyOf found.2 = some key

namespace Copied

variable {catalog : RelationCatalog} {floor : Nat} {start top top' : RelationOverlay}
  {rows : List (Tid × Bytes)} {tuple : Bytes} {tid : Tid} {relation relation' : RelationStorage}

theorem begin (inserted : start.insertedTids = []) (blocks : start.blocks = []) :
    Copied catalog floor start start [] where
  notes := ⟨rfl, rfl, rfl, rfl, rfl, rfl, rfl⟩
  inserted := inserted
  distinct := .nil
  stored := by simp
  past := by simp [blocks]
  keys := by simp

theorem block (copied : Copied catalog floor start top rows) {row : Tid × Bytes}
    (mem : row ∈ rows) : floor ≤ row.1.block :=
  copied.past _ (mem_blocks_of_pendingRow (copied.stored row mem))

/-- One more row, with its key entry. -/
theorem append (copied : Copied catalog floor start top rows)
    (places : Places tuple (some tid) relation relation' top top')
    (same : ∀ tid, relation'.row tid = relation.row tid) (low : floor ≤ relation.nextBlock) :
    Copied catalog floor start
      ((catalog.keyOf tuple).elim top' fun key => top'.insertPrimaryKey key tid)
      (rows ++ [(tid, tuple)]) := by
  obtain ⟨missing, unpaged, -⟩ := places.free tid rfl
  have pages : ∀ other, top'.pendingRow other =
      if some tid = some other then some (.pending, tuple) else top.pendingRow other := by
    rcases places.stored with ⟨-, pages⟩ | ⟨-, filed⟩
    · exact pages
    · have there := filed tid
      rw [same, missing, if_pos rfl] at there
      cases there
  have fresh : tid ∉ rows.map Prod.fst := by
    intro mem
    obtain ⟨row, old, rfl⟩ := mem_map.mp mem
    rw [copied.stored row old] at unpaged
    cases unpaged
  have inserted : top'.insertedTids = (rows ++ [(tid, tuple)]).map Prod.fst := by
    have pushed : top'.insertedTids = pushUnique top.insertedTids tid := places.inserted
    rw [pushed, copied.inserted, pushUnique, if_neg fresh, map_append]
    rfl
  have distinct : ((rows ++ [(tid, tuple)]).map Prod.fst).Nodup := by
    rw [map_append]
    exact nodup_append.mpr ⟨copied.distinct, nodup_singleton _, by grind⟩
  have stored : ∀ row ∈ rows ++ [(tid, tuple)], top'.pendingRow row.1 = some (.pending, row.2) := by
    intro row mem
    rw [pages]
    rcases mem_append.mp mem with old | new
    · have apart : some tid ≠ some row.1 := by
        rintro ⟨⟩
        exact fresh (mem_map_of_mem old)
      rw [if_neg apart, copied.stored row old]
    · rw [mem_singleton.mp new, if_pos rfl]
  have past : ∀ block ∈ top'.blocks, floor ≤ block := by
    intro block mem
    rcases places.blocks block mem with old | ⟨new, -⟩
    · exact copied.past block old
    · omega
  have notes := copied.notes
  have kept := places.notes
  cases keyed : catalog.keyOf tuple with
  | none =>
    refine ⟨⟨kept.1.trans notes.1, kept.2.trans notes.2, kept.3.trans notes.3,
      kept.4.trans notes.4, kept.5.trans notes.5, rfl, kept.7.trans notes.7⟩, inserted, distinct,
      stored, past, fun row mem key named => ?_⟩
    rcases mem_append.mp mem with old | new
    · obtain ⟨found, among, entry, own⟩ := copied.keys row old key named
      exact ⟨found, mem_append_left _ among, kept.primaryKeyInserts ▸ entry, own⟩
    · rw [mem_singleton.mp new, keyed] at named
      cases named
  | some last =>
    refine ⟨⟨kept.1.trans notes.1, kept.2.trans notes.2, kept.3.trans notes.3,
      kept.4.trans notes.4, kept.5.trans notes.5, rfl, kept.7.trans notes.7⟩, inserted, distinct,
      stored, past, fun row mem key named => ?_⟩
    have entries : (top'.insertPrimaryKey last tid).primaryKeyInserts =
        upsert top.primaryKeyInserts last tid := by
      rw [← kept.primaryKeyInserts]
      rfl
    dsimp only [elim_some]
    rw [entries]
    by_cases latest : key = last
    · subst latest
      exact ⟨(tid, tuple), by simp, lookup_upsert_self .., keyed⟩
    · rcases mem_append.mp mem with old | new
      · obtain ⟨found, among, entry, own⟩ := copied.keys row old key named
        exact ⟨found, mem_append_left _ among,
          (lookup_upsert_ne _ _ (Ne.symm latest)).trans entry, own⟩
      · rw [mem_singleton.mp new, keyed] at named
        exact absurd (some.inj named).symm latest

end Copied

namespace Local

variable {catalog : RelationCatalog} {floor : Nat} {start top : RelationOverlay} {outer : Overlays}

theorem recordCopiedKey_eq (here : Local) (catalog : RelationCatalog) (tuple : Bytes) (tid : Tid) :
    here.recordCopiedKey catalog tuple tid = here.modifyTop fun top =>
      (catalog.keyOf tuple).elim top fun key => top.insertPrimaryKey key tid := by
  unfold recordCopiedKey RelationCatalog.keyOf
  split
  next found => rw [found]; rfl
  next found =>
    rw [found]
    unfold modifyTop
    split
    · rfl
    · rename_i levels
      obtain ⟨relation, overlays⟩ := here
      cases levels
      rfl

/-- Tuples are copied one after the other, past the blocks used so far. -/
theorem copyTuples_copied {tuples : List Bytes} (here : Local) {rows : List (Tid × Bytes)}
    (short : ∀ tuple ∈ tuples, tuple.length < 2 ^ 32)
    (room : here.relation.nextBlock + tuples.length < 2 ^ 32)
    (stack : StackSound here.relation here.overlays)
    (levels : here.ensureTransaction.overlays = top :: outer)
    (copied : Copied catalog floor start top rows) (low : floor ≤ here.relation.nextBlock) :
    ∃ here' top' more, copyTuples catalog tuples here = (here', true) ∧
      here'.ensureTransaction.overlays = top' :: outer ∧
      Copied catalog floor start top' (rows ++ more) ∧ more.map Prod.snd = tuples := by
  induction tuples generalizing here top rows with
  | nil => exact ⟨here, top, [], rfl, levels, by simpa using copied, rfl⟩
  | cons tuple rest ih =>
    rw [length_cons] at room
    obtain ⟨after, tid, appended⟩ :=
      here.appendCopy_accepts (short tuple (.head _)) (by omega)
    have reserves : Reserves 1 here.relation after.relation := by
      have := here.appendCopy_reserves tuple
      rwa [appended] at this
    obtain ⟨top₀, top₁, outer₀, before, placed, places⟩ :=
      appendPendingTuple_places stack ((here.appendCopy_eq tuple).symm.trans appended)
    rw [levels] at before
    obtain ⟨rfl, rfl⟩ := cons.inj before
    have next := copied.append places reserves.row low
    have keyed : after.recordCopiedKey catalog tuple tid = ⟨after.relation,
        ((catalog.keyOf tuple).elim top₁ fun key => top₁.insertPrimaryKey key tid) :: outer⟩ := by
      rw [recordCopiedKey_eq, modifyTop, placed]
    have moves : Moves unshared here (after.recordCopiedKey catalog tuple tid) := by
      have first : Move unshared here (here.appendCopy tuple).1 :=
        here.appendCopy_eq tuple ▸ .append here tuple
      rw [appended] at first
      exact .head first (after.recordCopiedKey_moves catalog tuple tid)
    have sound := (moves.writes stack).stack
    rw [keyed] at sound
    have more := reserves.low
    have high := reserves.high
    obtain ⟨here', top', more, rest, levels', copied', named⟩ :=
      ih _ (fun other mem => short other (mem_cons_of_mem _ mem)) (by dsimp only; omega)
        sound rfl next (by dsimp only; omega)
    refine ⟨here', top', (tid, tuple) :: more, ?_, levels', ?_, ?_⟩
    · rw [copyTuples, appended]
      dsimp only
      rw [keyed]
      exact rest
    · simpa using copied'
    · rw [map_cons, named]

end Local

/-! ## Reading the copies -/

namespace Overlays

/-- Whether the levels hide a row of the innermost level that has no command
    id, once that level has cleared the relation. -/
def hidesCopy : Overlays → Tid → Bool
  | [], _ => false
  | top :: outer, tid =>
    match top.invalidatedCid tid with
    | some cid => cid ≠ 0
    | none => invalidateTidFrom (fun _ => true) (some 0) outer tid

/-- The levels note nothing about blocks from `floor` on that would apply to a
    row copied there: no redirect from it, and no invalidation that hides it. -/
structure Clean (levels : Overlays) (floor : Nat) : Prop where
  hot : ∀ tid : Tid, floor ≤ tid.block → tidRedirect levels tid = none
  update : ∀ tid : Tid, floor ≤ tid.block → updateRedirect levels tid = none
  shown : ∀ tid : Tid, floor ≤ tid.block → hidesCopy levels tid = false

end Overlays

/-- A level in which copying starts: one that has just cleared the relation, or
    the only one of a new transaction. -/
structure Emptied (start : RelationOverlay) (outer : Overlays) : Prop where
  emptied : start.cleared = true ∨ start = {} ∧ outer = []
  cids : start.insertedCids = []

namespace Copied

variable {catalog : RelationCatalog} {floor : Nat} {start top : RelationOverlay} {outer : Overlays}
  {rows : List (Tid × Bytes)} {row : Tid × Bytes} {relation : RelationStorage}

section

variable (copied : Copied catalog floor start top rows)
include copied

theorem mem_insertedTids (mem : row ∈ rows) :
    row.1 ∈ top.insertedTids := by
  rw [copied.inserted]
  exact mem_map_of_mem mem

theorem insertedCid (emptied : Emptied start outer) (mem : row ∈ rows) :
    top.insertedCid row.1 = some 0 := by
  have cids : top.insertedCids = [] := copied.notes.insertedCids.trans emptied.cids
  rw [RelationOverlay.insertedCid, if_pos (copied.mem_insertedTids mem), cids]
  rfl

theorem invalidatedCid (tid : Tid) :
    top.invalidatedCid tid = start.invalidatedCid tid := by
  have tids : top.invalidatedTids = start.invalidatedTids := copied.notes.invalidatedTids
  have metadata : top.invalidatedMetadata = start.invalidatedMetadata :=
    copied.notes.invalidatedMetadata
  rw [RelationOverlay.invalidatedCid, RelationOverlay.invalidatedCid, tids, metadata]

theorem cleared : top.cleared = start.cleared :=
  congrArg isSome copied.notes.clearedRelation

theorem unclear (mem : row ∈ rows) : clearTid (top :: outer) row.1 = false := by
  rw [clearTid, if_pos (copied.mem_insertedTids mem)]

theorem pendingTupleSlice (mem : row ∈ rows) :
    pendingTupleSlice (top :: outer) row.1 = some row.2 := by
  have own : top.pendingTupleSlice row.1 = some row.2 := by
    rw [pendingTupleSlice_eq, copied.stored row mem]
    rfl
  rw [Overlays.pendingTupleSlice, own]

theorem unmoved (clean : Overlays.Clean (start :: outer) floor) (links : relation.hotRedirects = [])
    (mem : row ∈ rows) : relation.resolveTidRedirect (top :: outer) row.1 = row.1 := by
  have hot : top.hotRedirectInserts = start.hotRedirectInserts := copied.notes.hotRedirectInserts
  have own : tidRedirect (top :: outer) row.1 = none := by
    rw [← clean.hot row.1 (copied.block mem), tidRedirect, tidRedirect,
      findSome?_cons, findSome?_cons, hot]
  apply Ends.follow_eq
  exact .stop (by simp [hotNext, orElse, own, links])

variable (emptied : Emptied start outer) (clean : Overlays.Clean (start :: outer) floor)
include emptied clean

theorem unhidden (mem : row ∈ rows) :
    invalidateTid (top :: outer) row.1 = false := by
  have shown := clean.shown row.1 (copied.block mem)
  rw [invalidateTid, invalidateTidFrom, copied.insertedCid emptied mem,
    copied.invalidatedCid, copied.cleared]
  rw [hidesCopy] at shown
  cases struck : start.invalidatedCid row.1 with
  | none =>
    rw [struck] at shown
    exact shown
  | some cid =>
    rw [struck] at shown
    obtain rfl : cid = 0 := by simpa using shown
    rcases emptied.emptied with gone | ⟨rfl, -⟩
    · rw [gone]
      rfl
    · cases struck

/-- The session reads the copies at their own places. -/
theorem read (mem : row ∈ rows) :
    relation.physicalVisibleTupleSlice (top :: outer) row.1 = some row.2 := by
  have own : ownInsertedTid (top :: outer) row.1 = true := by
    rw [ownInsertedTid, if_pos (copied.mem_insertedTids mem)]
  rw [physicalVisibleTupleSlice_eq, copied.unhidden emptied clean mem,
    copied.unclear mem, own, copied.pendingTupleSlice mem]
  rfl

/-- It reads nothing else. -/
theorem only (empty : ∀ tid, relation.row tid = none) {tid : Tid} {bytes : Bytes}
    (seen : relation.physicalVisibleTupleSlice (top :: outer) tid = some bytes) :
    (tid, bytes) ∈ rows := by
  by_cases own : tid ∈ top.insertedTids
  · rw [copied.inserted] at own
    obtain ⟨row, mem, rfl⟩ := mem_map.mp own
    rw [copied.read emptied clean mem] at seen
    cases seen
    exact mem
  · have gone : clearTid (top :: outer) tid = true ∨ outer = [] ∧ top.cleared = false := by
      rw [clearTid, if_neg own, copied.cleared]
      rcases emptied.emptied with cleared | ⟨rfl, rfl⟩
      · simp [cleared]
      · exact .inr ⟨rfl, rfl⟩
    rw [physicalVisibleTupleSlice_eq] at seen
    rcases gone with gone | ⟨rfl, uncleared⟩
    · simp [gone] at seen
    · have mine : ownInsertedTid [top] tid = false := by
        simp [ownInsertedTid, own]
      simp [mine, tupleSlice_eq, empty] at seen

theorem fetch (links : relation.hotRedirects = []) (mem : row ∈ rows) :
    relation.visibleTupleSlice (top :: outer) row.1 = some row.2 := by
  rw [visibleTupleSlice, copied.unmoved clean links mem,
    copied.read emptied clean mem]

theorem visibleTids_perm (empty : ∀ tid, relation.row tid = none) :
    (relation.visibleTids (top :: outer)).Perm (rows.map Prod.fst) := by
  have listed : (relation.visibleTids (top :: outer)).Nodup := (OrdSet.nodup _).filter _
  rw [perm_ext_iff_of_nodup listed copied.distinct]
  intro tid
  rw [visibleTids, mem_filter]
  constructor
  · rintro ⟨-, seen⟩
    obtain ⟨bytes, seen⟩ := isSome_iff_exists.mp seen
    exact mem_map_of_mem (copied.only emptied clean empty seen)
  · intro named
    obtain ⟨row, mem, rfl⟩ := mem_map.mp named
    have own := copied.mem_insertedTids mem
    refine ⟨OrdSet.mem_ofList.mpr ?_, by rw [copied.read emptied clean mem]; rfl⟩
    simp [own]

/-- A scan shows the copies. -/
theorem visibleRows_perm (empty : ∀ tid, relation.row tid = none) :
    (relation.visibleRows (top :: outer)).Perm rows := by
  have listed : (rows.map Prod.fst).filterMap (fun tid =>
      (relation.physicalVisibleTupleSlice (top :: outer) tid).map fun tuple => (tid, tuple)) = rows := by
    rw [filterMap_map]
    conv_rhs => rw [← filterMap_some (l := rows)]
    apply filterMap_congr
    intro row mem
    rw [Function.comp, copied.read emptied clean mem]
    rfl
  have scanned := (copied.visibleTids_perm emptied clean empty).filterMap fun tid =>
    (relation.physicalVisibleTupleSlice (top :: outer) tid).map fun tuple => (tid, tuple)
  rwa [listed] at scanned

/-- A fetch of every listed tid shows the copies as well. -/
theorem fetched_perm
    (empty : ∀ tid, relation.row tid = none) (links : relation.hotRedirects = []) :
    ((relation.visibleTids (top :: outer)).filterMap
      (relation.visibleTupleSlice (top :: outer))).Perm (rows.map Prod.snd) := by
  have listed : (rows.map Prod.fst).filterMap (relation.visibleTupleSlice (top :: outer)) =
      rows.map Prod.snd := by
    rw [filterMap_map, ← filterMap_eq_map]
    apply filterMap_congr
    intro row mem
    exact copied.fetch emptied clean links mem
  have fetched := (copied.visibleTids_perm emptied clean empty).filterMap
    (relation.visibleTupleSlice (top :: outer))
  rwa [listed] at fetched

/-- The own pages show a copy without the relation. -/
theorem visiblePendingSlice (mem : row ∈ rows) :
    visiblePendingSlice (top :: outer) row.1 = some row.2 := by
  have unhidden := copied.unhidden emptied clean mem
  have unclear := @unclear _ _ _ _ outer _ _ copied mem
  have page := @pendingTupleSlice _ _ _ _ outer _ _ copied mem
  cases outer with
  | nil =>
    have visible : singleOverlayTidVisibility top row.1 none = some true := by
      rw [← tidVisibility_singleton, tidVisibility, unhidden, unclear,
        ownInsertedTid, if_pos (copied.mem_insertedTids mem)]
      rfl
    rw [pendingTupleSlice_singleton] at page
    rw [visiblePendingSlice, if_pos visible, page]
  | cons next rest =>
    rw [visiblePendingSlice]
    · rw [unhidden, unclear, page]
      rfl
    · simp

/-- Every primary key of the copies leads to a copy, whatever the cached count is. -/
theorem primaryKeyIndexLookup (links : relation.hotRedirects = [])
    (mem : row ∈ rows) {key : IndexKey} (named : catalog.keyOf row.2 = some key) (count : Nat) :
    ∃ found ∈ rows, catalog.keyOf found.2 = some key ∧
      relation.primaryKeyIndexLookup (top :: outer) count key = (relation, some found.1) := by
  obtain ⟨found, among, entry, own⟩ := copied.keys row mem key named
  refine ⟨found, among, own, ?_⟩
  have update : top.updateRedirectInserts = start.updateRedirectInserts :=
    copied.notes.updateRedirectInserts
  have still : resolveUpdate (top :: outer) found.1 = found.1 := by
    apply Ends.follow_eq
    refine .stop ?_
    rw [← clean.update found.1 (copied.block among), updateRedirect,
      updateRedirect, findSome?_cons, findSome?_cons, update]
  have first : ∀ visible : Tid → Bool, visible found.1 = true →
      overlayLookup visible (top :: outer) key (top :: outer) = .found found.1 := by
    intro visible shown
    rw [overlayLookup, entry, map_some, still, filter_some_pos]
    simp [shown, copied.unhidden emptied clean among]
  have shared : (relation.findVisibleTuple (top :: outer) found.1).isSome = true := by
    obtain ⟨spec, -, keyed⟩ := bind_eq_some_iff.mp own
    obtain ⟨values, decoded, -⟩ := bind_eq_some_iff.mp keyed
    rw [findVisibleTuple, copied.unmoved clean links among,
      copied.fetch emptied clean links among, bind_some, decoded]
    rfl
  have pages : (Overlays.visiblePendingSlice (top :: outer) found.1).isSome = true := by
    rw [copied.visiblePendingSlice emptied clean among]
    rfl
  have hit : relation.primaryKeyOverlayLookup (top :: outer) count key = .found found.1 := by
    have byRow := first (fun tid => (relation.findVisibleTuple (top :: outer) tid).isSome) shared
    have byPage := first (fun tid => (Overlays.visiblePendingSlice (top :: outer) tid).isSome) pages
    rw [primaryKeyOverlayLookup, byRow, byPage]
    exact ite_self _
  rw [RelationStorage.primaryKeyIndexLookup, hit]

end

end Copied

/-! ## Replacing -/

/-- Everything stored lies below the next block. -/
theorem Local.Stored.below {here : Local} {tid : Tid} (stored : here.Stored tid)
    (stack : StackSound here.relation here.overlays) : tid.block < here.relation.nextBlock := by
  rcases stored with row | own
  · obtain ⟨entry, found⟩ := isSome_iff_exists.mp row
    exact stack.sound.below _ (physical_of_row found)
  · exact (StackSound.unfiled stack own).2

namespace Local

variable {here : Local} {catalog : RelationCatalog} {tuples : List Bytes}

/-- Where a clear that keeps the tid space leaves room, the tuples are copied
    past everything stored. -/
theorem replaceWith_copied (stack : StackSound here.relation here.overlays)
    (clean : Overlays.Clean here.overlays here.relation.nextBlock)
    (short : ∀ tuple ∈ tuples, tuple.length < 2 ^ 32)
    (room : here.relation.nextBlock + tuples.length < 2 ^ 32) :
    ∃ here' start top outer rows, here.replaceWith catalog tuples = (here', true) ∧
      here'.ensureTransaction.overlays = top :: outer ∧
      Copied catalog here.relation.nextBlock start top rows ∧ Emptied start outer ∧
      Overlays.Clean (start :: outer) here.relation.nextBlock ∧ rows.map Prod.snd = tuples := by
  have sound := here.clear_stack stack catalog true
  obtain ⟨relation, overlays⟩ := here
  cases overlays with
  | nil =>
    have begun := @Copied.begin catalog relation.nextBlock {} rfl rfl
    obtain ⟨here', top, rows, copies, levels, copied, named⟩ :=
      copyTuples_copied ⟨replacement relation true, []⟩ short room sound rfl begun le_rfl
    exact ⟨here', {}, top, [], rows, copies, levels, copied, ⟨.inr ⟨rfl, rfl⟩, rfl⟩,
      ⟨fun _ _ => rfl, fun _ _ => rfl, fun _ _ => rfl⟩, named⟩
  | cons top outer =>
    obtain ⟨keys, cleared⟩ := clear_level relation top outer catalog true
    rw [cleared] at sound
    have begun := @Copied.begin catalog relation.nextBlock (clearedLevel relation top outer keys)
      rfl rfl
    obtain ⟨here', top', rows, copies, levels, copied, named⟩ :=
      copyTuples_copied ⟨replacement relation true, clearedLevel relation top outer keys :: outer⟩
        short room sound rfl begun le_rfl
    rw [replaceWith, cleared]
    refine ⟨here', _, top', outer, rows, copies, levels, copied, ⟨.inl rfl, rfl⟩,
      ⟨clean.hot, clean.update, fun tid high => ?_⟩, named⟩
    -- What the clear invalidated was stored, below the next block.
    have unseen : tid ∉ relation.visibleTids (top :: outer) := by
      intro listed
      obtain ⟨bytes, seen⟩ := isSome_iff_exists.mp (mem_filter.mp listed).2
      have below := (@stored_of_visible ⟨relation, top :: outer⟩ tid bytes seen).below stack
      exact absurd high (Nat.not_le.mpr below)
    have shown := clean.shown tid high
    simpa only [hidesCopy, invalidatedCid, mem_pushAll, unseen, or_false,
      clearedLevel, dropRows] using shown

end Local

/-- The session sees some rows and nothing else: by scans, by fetches and by
    key, and all of them from `floor` on. -/
structure Local.Shows (catalog : RelationCatalog) (floor : Nat) (rows : List (Tid × Bytes))
    (here : Local) : Prop where
  scanned : (here.relation.visibleRows here.overlays).Perm rows
  fetched : ((here.relation.visibleTids here.overlays).filterMap
    (here.relation.visibleTupleSlice here.overlays)).Perm (rows.map Prod.snd)
  keys : ∀ row ∈ rows, ∀ key, catalog.keyOf row.2 = some key → ∀ count, ∃ found ∈ rows,
    catalog.keyOf found.2 = some key ∧
      (here.relation.primaryKeyIndexLookup here.overlays count key).2 = some found.1 ∧
      here.relation.visibleTupleSlice here.overlays found.1 = some found.2
  past : ∀ tid ∈ here.relation.visibleTids here.overlays, floor ≤ tid.block

variable {catalog : RelationCatalog} {relation : RelationStorage}

theorem Copied.shows {floor : Nat} {start top : RelationOverlay} {outer : Overlays}
    {rows : List (Tid × Bytes)} (copied : Copied catalog floor start top rows)
    (emptied : Emptied start outer) (clean : Overlays.Clean (start :: outer) floor)
    (empty : ∀ tid, relation.row tid = none) (links : relation.hotRedirects = []) :
    Local.Shows catalog floor rows ⟨relation, top :: outer⟩ where
  scanned := copied.visibleRows_perm emptied clean empty
  fetched := copied.fetched_perm emptied clean empty links
  keys := by
    intro row mem key named count
    obtain ⟨found, among, own, hit⟩ :=
      copied.primaryKeyIndexLookup emptied clean links mem named count
    exact ⟨found, among, own, congrArg Prod.snd hit, copied.fetch emptied clean links among⟩
  past := by
    intro tid listed
    obtain ⟨row, mem, rfl⟩ :=
      mem_map.mp ((copied.visibleTids_perm emptied clean empty).mem_iff.mp listed)
    exact copied.block mem

/-- A level that holds nothing shows nothing, and it may as well not be there. -/
theorem Local.Shows.unstarted {floor : Nat} (shows : Shows catalog floor [] ⟨relation, [{}]⟩) :
    Shows catalog floor [] ⟨relation, []⟩ := by
  have tids : relation.visibleTids [{}] = relation.visibleTids [] := Alike.started.visibleTids relation
  have read : relation.physicalVisibleTupleSlice [{}] = relation.physicalVisibleTupleSlice [] :=
    Alike.started.physicalVisibleTupleSlice relation
  have fetch : relation.visibleTupleSlice [{}] = relation.visibleTupleSlice [] := by
    funext tid
    rw [visibleTupleSlice, visibleTupleSlice, read,
      Alike.started.resolveTidRedirect]
  obtain ⟨scanned, fetched, -, past⟩ := shows
  dsimp only [visibleRows] at scanned fetched past
  rw [tids] at scanned fetched past
  rw [read] at scanned
  rw [fetch] at fetched
  exact ⟨scanned, fetched, by simp, past⟩

theorem Local.replaceWith_shows {here : Local} {tuples : List Bytes} (catalog : RelationCatalog)
    (stack : StackSound here.relation here.overlays)
    (clean : Overlays.Clean here.overlays here.relation.nextBlock)
    (short : ∀ tuple ∈ tuples, tuple.length < 2 ^ 32)
    (room : here.relation.nextBlock + tuples.length < 2 ^ 32) :
    (here.replaceWith catalog tuples).2 = true ∧ ∃ rows, rows.map Prod.snd = tuples ∧
      Shows catalog here.relation.nextBlock rows (here.replaceWith catalog tuples).1 := by
  obtain ⟨here', start, top, outer, rows, replaced, levels, copied, emptied, clean', named⟩ :=
    @replaceWith_copied here catalog tuples stack clean short room
  have reserves : Reserves tuples.length (replacement here.relation true) here'.relation := by
    have all := copyTuples_reserves catalog tuples (here.clear catalog true)
    have fresh : (here.clear catalog true).relation = replacement here.relation true := by
      unfold clear
      split <;> rfl
    rw [fresh] at all
    have last : (copyTuples catalog tuples (here.clear catalog true)).1 = here' :=
      congrArg Prod.fst replaced
    rwa [last] at all
  have empty : ∀ tid, here'.relation.row tid = none := fun tid =>
    (reserves.row tid).trans (replacement_row ..)
  have links : here'.relation.hotRedirects = [] := by
    obtain ⟨next, reserved, same, -⟩ := reserves
    rw [same]
    rfl
  have shows := copied.shows emptied clean' empty links
  rw [replaced]
  refine ⟨rfl, rows, named, ?_⟩
  obtain ⟨relation, overlays⟩ := here'
  cases overlays with
  | nil =>
    cases levels
    obtain rfl : rows = [] := map_eq_nil_iff.mp copied.inserted.symm
    exact shows.unstarted
  | cons => cases levels; exact shows

/-! ## Undoing a replacement -/

/-- Two relations that hold the same live rows, redirects, key and index entries. -/
structure SameContents (a b : RelationStorage) : Prop where
  rows : SameLive a b
  hotRedirects : a.hotRedirects = b.hotRedirects
  updateRedirects : a.updateRedirects = b.updateRedirects
  primaryKeyIndex : a.primaryKeyIndex = b.primaryKeyIndex
  indexes : a.indexes = b.indexes

namespace SameContents

variable {a b c : RelationStorage}

theorem refl : SameContents a a := ⟨.refl, rfl, rfl, rfl, rfl⟩

theorem trans (first : SameContents a b) (second : SameContents b c) : SameContents a c :=
  ⟨first.1.trans second.1, first.2.trans second.2, first.3.trans second.3, first.4.trans second.4,
    first.5.trans second.5⟩

theorem symm (same : SameContents a b) : SameContents b a :=
  ⟨same.1.symm, same.2.symm, same.3.symm, same.4.symm, same.5.symm⟩

theorem base (same : SameContents a b) (overlays : Overlays) :
    SameContents (baseRelation a overlays) (baseRelation b overlays) := by
  induction overlays generalizing a b with
  | nil => exact same
  | cons overlay outer ih =>
    apply ih
    cases overlay.clearedRelation with
    | none => exact same
    | some snapshot => exact .refl

end SameContents

theorem Reserves.contents {count : Nat} {before after : RelationStorage}
    (reserves : Reserves count before after) : SameContents after before := by
  obtain ⟨next, reserved, rfl, -⟩ := reserves
  exact ⟨.refl, rfl, rfl, rfl, rfl⟩

theorem rollbackAll_contents {overlays : Overlays} (stack : StackSound relation overlays) :
    SameContents (Local.rollbackAll relation overlays) (baseRelation relation overlays) := by
  induction overlays generalizing relation with
  | nil => exact .refl
  | cons top outer ih =>
    have level : SameContents (Local.rollbackOverlay relation top)
        (top.clearedRelation.getD relation) := by
      cases saved : top.clearedRelation with
      | some snapshot =>
        rw [Local.rollbackOverlay, saved]
        exact .refl
      | none =>
        have uncleared : top.cleared = false := by simp [cleared, saved]
        have live := @Local.rollbackOverlay_live relation top outer stack
        rw [saved] at live
        obtain ⟨hot, update, keys, indexes⟩ := @Local.rollbackOverlay_entries relation top uncleared
        exact ⟨live, hot, update, keys, indexes⟩
    exact (ih (Local.rollbackOverlay_stack stack)).trans (level.base outer)

/-- Whether the abort of the transaction would undo a replacement: without a
    transaction, only of a relation that holds nothing, and otherwise unless the
    innermost level has checkpointed a page that holds live rows past it. -/
def Undoable (relation : RelationStorage) : Overlays → Prop
  | [] => SameContents RelationStorage.default relation
  | top :: outer => Overlays.holdsClear (top :: outer) = false → top.CheckpointsCover relation

theorem RelationOverlay.restore_contents_iff {overlay : RelationOverlay} (sound : relation.Sound)
    (checkpointed : overlay.relationCheckpoint = none → overlay.pageCheckpoints = []) :
    SameContents (overlay.restoreRelationSnapshot relation) relation ↔
      overlay.CheckpointsCover relation := by
  obtain ⟨hot, update, keys, indexes⟩ := overlay.restoreRelationSnapshot_entries relation
  constructor
  · intro same entry mem offset bytes live
    by_contra past
    have kept := (same.rows ⟨entry.1, offset⟩ bytes).mpr live
    have row : (overlay.restoreRelationSnapshot relation).row ⟨entry.1, offset⟩ =
        (restorePages overlay.pageCheckpoints relation).row ⟨entry.1, offset⟩ := by
      unfold restoreRelationSnapshot
      cases overlay.relationCheckpoint <;> rfl
    rw [row, (restorePages_spec overlay.pageCheckpoints relation).1,
      if_pos ⟨entry, mem, rfl, Nat.not_le.mp past⟩, live] at kept
    cases kept
  · exact fun cover => ⟨restore_live sound checkpointed cover, hot, update, keys, indexes⟩

namespace Local

/-- What copying leaves to a rollback. -/
theorem copyTuples_base {here : Local} (stack : StackSound here.relation here.overlays)
    (catalog : RelationCatalog) (tuples : List Bytes) :
    SameContents (baseRelation (copyTuples catalog tuples here).1.relation
      (copyTuples catalog tuples here).1.overlays) (baseRelation here.relation here.overlays) := by
  have contents := (copyTuples_reserves catalog tuples here).contents
  have shape := ((copyTuples_moves catalog tuples here).writes stack).shape
  generalize (copyTuples catalog tuples here).1 = copied at contents shape
  obtain ⟨relation, overlays⟩ := here
  obtain ⟨relation', overlays'⟩ := copied
  dsimp only at contents shape ⊢
  rcases shape with rfl | ⟨rfl, top, rfl, uncleared⟩ | ⟨top, top', outer, rfl, rfl, kept⟩
  · exact contents.base overlays'
  · simpa [baseRelation, uncleared] using contents
  · simp only [baseRelation, kept]
    apply SameContents.base
    cases top.clearedRelation with
    | none => exact contents
    | some snapshot => exact .refl

theorem clear_base_iff {here : Local} (stack : StackSound here.relation here.overlays)
    (catalog : RelationCatalog) :
    SameContents (baseRelation (here.clear catalog true).relation (here.clear catalog true).overlays)
      (baseRelation here.relation here.overlays) ↔ Undoable here.relation here.overlays := by
  obtain ⟨relation, overlays⟩ := here
  cases overlays with
  | nil =>
    have empty : SameContents (replacement relation true) RelationStorage.default :=
      ⟨fun _ _ => Iff.rfl, rfl, rfl, rfl, rfl⟩
    exact ⟨empty.symm.trans, empty.trans⟩
  | cons top outer =>
    obtain ⟨keys, cleared⟩ := clear_level relation top outer catalog true
    rw [cleared]
    dsimp only [baseRelation, clearedLevel, getD_some, Undoable]
    cases earlier : top.clearedRelation with
    | some first =>
      have held : Overlays.holdsClear (top :: outer) = true := by
        simp [Overlays.holdsClear, RelationOverlay.cleared, earlier]
      simp only [getD_some, held, Bool.true_eq_false, false_imp_iff, iff_true]
      exact .refl
    | none =>
      have same : Overlays.holdsClear (top :: outer) = Overlays.holdsClear outer := by
        simp [Overlays.holdsClear, RelationOverlay.cleared, earlier]
      rw [getD_none, getD_none, same]
      cases held : holdsClear outer with
      | true =>
        simp only [Bool.true_eq_false, false_imp_iff, iff_true]
        rw [baseRelation_held held _ relation]
        exact .refl
      | false =>
        have uncleared := uncleared_of_holdsClear held
        rw [baseRelation_uncleared uncleared, baseRelation_uncleared uncleared]
        simp only [forall_const]
        exact restore_contents_iff stack.sound stack.1.checkpointed

/-- A replacement and the abort of its transaction, against the abort alone. -/
theorem replaceWith_rollback_iff {here : Local} (stack : StackSound here.relation here.overlays)
    (catalog : RelationCatalog) (tuples : List Bytes) :
    SameContents (rollbackAll (here.replaceWith catalog tuples).1.relation
        (here.replaceWith catalog tuples).1.overlays) (rollbackAll here.relation here.overlays) ↔
      Undoable here.relation here.overlays := by
  have sound := here.clear_stack stack catalog true
  have copied := copyTuples_base sound catalog tuples
  have after := rollbackAll_contents
    ((copyTuples_moves catalog tuples (here.clear catalog true)).writes sound).stack
  have before := rollbackAll_contents stack
  rw [← clear_base_iff stack catalog]
  exact ⟨fun same => (copied.symm.trans after.symm).trans (same.trans before),
    fun same => (after.trans copied).trans (same.trans before.symm)⟩

end Local

/-! ## What a replacement does -/

namespace StorageState

variable {state : StorageState} {sid : SessionId} {dst src : Relid}

/-- The tuples a scan of a relation shows a session. -/
def scannedTuples (state : StorageState) (sid : SessionId) (relid : Relid) : List Bytes :=
  ((state.relations relid).visibleRows (state.overlays sid relid)).map Prod.snd

/-- Aborting the transaction of a session in `after` leaves what aborting it in
    `before` leaves; of one relation, its contents. -/
structure Undone (sid : SessionId) (dst : Relid) (before after : StorageState) : Prop where
  contents : SameContents ((after.xactAbort sid).relations dst) ((before.xactAbort sid).relations dst)
  relations : ∀ relid, relid ≠ dst →
    (after.xactAbort sid).relations relid = (before.xactAbort sid).relations relid
  levels : ∀ other relid,
    (after.xactAbort sid).overlays other relid = (before.xactAbort sid).overlays other relid

/-- What replacing `dst` from `src` is for. A session sees a relation by scans
    and by fetches, and it finds rows by key. -/
structure Replaces (catalog : Catalog) (sid : SessionId) (dst src : Relid)
    (before after : StorageState) : Prop where
  scanned : (after.scannedTuples sid dst).Perm (before.scannedTuples sid src)
  fetched : (after.visibleTuples sid dst).Perm (before.scannedTuples sid src)
  source : after.relations src = before.relations src ∧
    ∀ other, SameSight (before.localView other src) (after.localView other src)
  keys : ∀ tuple ∈ before.scannedTuples sid src, ∀ key, (catalog dst).keyOf tuple = some key →
    ∀ count, ∃ tid found, ((after.relations dst).primaryKeyIndexLookup
        (after.overlays sid dst) count key).2 = some tid ∧
      (after.relations dst).visibleTupleSlice (after.overlays sid dst) tid = some found ∧
      (catalog dst).keyOf found = some key
  fresh : ∀ tid ∈ (after.relations dst).visibleTids (after.overlays sid dst),
    ∀ other, ¬(before.localView other dst).Stored tid
  undone : Undone sid dst before after

theorem replaceRelationFrom_localView (catalog : Catalog) (state : StorageState) (sid : SessionId)
    (dst src : Relid) : (state.replaceRelationFrom catalog sid dst src).1.localView sid dst =
      ((state.localView sid dst).replaceWith (catalog dst) (state.visibleTuples sid src)).1 :=
  localView_putLocal_self _

/-- Another relation is left alone; at most a level was opened. -/
theorem replaceRelationFrom_other (catalog : Catalog) (state : StorageState) (sid : SessionId)
    (src : Relid) {relid : Relid} (apart : relid ≠ dst) :
    (state.replaceRelationFrom catalog sid dst src).1.view relid = state.view relid ∨
      ((state.view relid).levels sid = [] ∧
        (state.replaceRelationFrom catalog sid dst src).1.view relid =
          (state.view relid).put sid ⟨state.relations relid, [{}]⟩) := by
  have depth : (state.localView sid dst).SameDepth
      ((state.localView sid dst).replaceWith (catalog dst) (state.visibleTuples sid src)).1 :=
    Local.SameDepth.trans (.inl (Local.clear_length ..)) (Local.copyTuples_depth ..)
  have levels : (state.localView sid dst).overlays.length = (state.sessions sid).stack.length :=
    length_map _
  refine view_putLocal_other apart ?_
  rw [← length_eq_zero_iff, ← levels]
  exact depth

theorem replaceRelationFrom_source (catalog : Catalog) (apart : src ≠ dst) :
    let after := (state.replaceRelationFrom catalog sid dst src).1
    after.relations src = state.relations src ∧
      ∀ other, SameSight (state.localView other src) (after.localView other src) := by
  have same : ∀ here, SameSight here here :=
    fun _ => ⟨fun _ => rfl, fun _ _ => rfl, rfl, fun _ => rfl⟩
  rcases replaceRelationFrom_other catalog state sid src apart with kept | ⟨fresh, started⟩
  · refine ⟨congrArg View.relation kept, fun other => ?_⟩
    have reach : _ = state.localView other src := congrArg (fun view => view.reach other) kept
    exact reach ▸ same _
  · refine ⟨congrArg View.relation started, fun other => ?_⟩
    have reach := congrArg (fun view => view.reach other) started
    change (state.replaceRelationFrom catalog sid dst src).1.localView other src = _ at reach
    rw [reach]
    by_cases own : other = sid
    · subst own
      have levels : state.localView other src = ⟨state.relations src, []⟩ :=
        congrArg (Local.mk _) fresh
      rw [View.reach, View.put_levels_self, levels]
      exact started_sight _
    · rw [View.reach, View.put_levels_other _ _ own]
      exact same _

theorem xactAbort_overlays_self (state : StorageState) (sid : SessionId) (relid : Relid) :
    (state.xactAbort sid).overlays sid relid = [] := by
  simp [xactAbort, rollbackAll, setExplicit, setSession, overlays]

theorem xactAbort_overlays_other (state : StorageState) {other : SessionId} (ne : other ≠ sid)
    (relid : Relid) :
    (state.xactAbort sid).overlays other relid = state.overlays other relid := by
  simp [xactAbort, rollbackAll, setExplicit, setSession, overlays, ne]

theorem replaceRelationFrom_undone_iff (catalog : Catalog) (src : Relid)
    (stack : StackSound (state.relations dst) (state.overlays sid dst)) :
    Undone sid dst state (state.replaceRelationFrom catalog sid dst src).1 ↔
      Undoable (state.relations dst) (state.overlays sid dst) := by
  have here := replaceRelationFrom_localView catalog state sid dst src
  have iff := @Local.replaceWith_rollback_iff (state.localView sid dst) stack (catalog dst)
    (state.visibleTuples sid src)
  rw [← here] at iff
  refine ⟨fun undone => iff.mp undone.contents, fun undoable => ⟨iff.mpr undoable, ?_, ?_⟩⟩
  · intro relid apart
    rcases replaceRelationFrom_other catalog state sid src apart with kept | ⟨fresh, started⟩
    · have reach := congrArg (fun view => view.reach sid) kept
      exact congrArg (fun here : Local => Local.rollbackAll here.relation here.overlays) reach
    · have reach := congrArg (fun view => view.reach sid) started
      have after : (state.replaceRelationFrom catalog sid dst src).1.localView sid relid =
          ⟨state.relations relid, [{}]⟩ := by
        refine Eq.trans reach ?_
        rw [View.reach, View.put_levels_self, View.put_relation]
      have before : state.overlays sid relid = [] := fresh
      have rolled := congrArg
        (fun here : Local => Local.rollbackAll here.relation here.overlays) after
      refine Eq.trans rolled ?_
      change _ = Local.rollbackAll (state.relations relid) (state.overlays sid relid)
      rw [before]
      rfl
  · intro other relid
    by_cases own : other = sid
    · subst own
      rw [xactAbort_overlays_self, xactAbort_overlays_self]
    · rw [xactAbort_overlays_other _ own, xactAbort_overlays_other _ own]
      simp [replaceRelationFrom, putLocal, overlays, setSession, own]

theorem visibleTuples_encoded {relid : Relid} (written : (state.localView sid relid).Written)
    {tuple : Bytes} (mem : tuple ∈ state.visibleTuples sid relid) : Encoded tuple := by
  obtain ⟨tid, -, seen⟩ := mem_filterMap.mp mem
  exact written.physicalVisibleTupleSlice seen

end StorageState

namespace Engine

/-- Where the session's levels note nothing about the blocks that the copies
    take, and there are blocks enough, a replacement succeeds. It does what it
    is for exactly if every row that a scan of the source shows is fetched as it
    is, and if the abort of the transaction can restore the replaced relation. -/
theorem replaceRelationFrom_replaces_iff {catalog : Catalog} {engine : Engine}
    (reached : Reaches (step catalog) Respects .initial engine) {sid : SessionId} {dst src : Relid}
    (apart : dst ≠ src)
    (clean : Overlays.Clean (engine.storage.overlays sid dst)
      (engine.storage.relations dst).nextBlock)
    (room : (engine.storage.relations dst).nextBlock +
      (engine.storage.visibleTuples sid src).length < 2 ^ 32) :
    (engine.storage.replaceRelationFrom catalog sid dst src).2 = true ∧
      (engine.storage.Replaces catalog sid dst src
          (engine.storage.replaceRelationFrom catalog sid dst src).1 ↔
        (engine.storage.visibleTuples sid src).Perm (engine.storage.scannedTuples sid src) ∧
          Undoable (engine.storage.relations dst) (engine.storage.overlays sid dst)) := by
  have shared := (reaches_kept reached).shared
  have stack : ∀ other, StackSound (engine.storage.relations dst)
      (engine.storage.overlays other dst) := (shared dst).levels
  obtain ⟨accepted, rows, named, shows⟩ :=
    @Local.replaceWith_shows (engine.storage.localView sid dst) _ (catalog dst) (stack sid) clean
      (fun tuple member =>
        (StorageState.visibleTuples_encoded (reaches_written reached src sid) member).short) room
  have undone := StorageState.replaceRelationFrom_undone_iff catalog src (stack sid)
  have source := @StorageState.replaceRelationFrom_source engine.storage sid dst src catalog
    (Ne.symm apart)
  rw [← StorageState.replaceRelationFrom_localView] at shows
  have scanned : ((engine.storage.replaceRelationFrom catalog sid dst src).1.scannedTuples
      sid dst).Perm (engine.storage.visibleTuples sid src) := by
    rw [← named]
    exact shows.scanned.map Prod.snd
  have fetched : ((engine.storage.replaceRelationFrom catalog sid dst src).1.visibleTuples
      sid dst).Perm (engine.storage.visibleTuples sid src) := by
    rw [← named]
    exact shows.fetched
  refine ⟨accepted, fun replaces => ⟨scanned.symm.trans replaces.scanned, undone.mp replaces.undone⟩,
    fun ⟨plain, undoable⟩ => ⟨scanned.trans plain, fetched.trans plain, source, ?_, ?_,
      undone.mpr undoable⟩⟩
  · intro tuple member key keyed count
    have copied := plain.mem_iff.mpr member
    rw [← named] at copied
    obtain ⟨row, among, rfl⟩ := List.mem_map.mp copied
    obtain ⟨found, -, own, hit, read⟩ := shows.keys row among key keyed count
    exact ⟨found.1, found.2, hit, read, own⟩
  · intro tid listed other stored
    have below := stored.below (stack other)
    exact absurd (shows.past tid listed) (Nat.not_le.mpr below)

/-- Two committed rows, and a transaction. -/
def twoRows : List Request :=
  [⟨1, .call (.insert 8 [] .skip none false)⟩,
    ⟨1, .call (.insert 8 [⟨true, false, 0, [], 0⟩] .skip none false)⟩, ⟨1, .call .xactCommit⟩,
    ⟨1, .call .xactBegin⟩]

theorem replaceRelationFrom_replaces_iff_twoRows : ∃ engine : Engine,
    run (step bareCatalog) .initial twoRows = some engine ∧
      (engine.storage.visibleTuples 1 8).length = 2 ∧
      engine.storage.Replaces bareCatalog 1 7 8
        (engine.storage.replaceRelationFrom bareCatalog 1 7 8).1 := by
  obtain ⟨engine, ran⟩ : ∃ engine, run (step bareCatalog) .initial twoRows = some engine :=
    ⟨_, rfl⟩
  have reached := reaches_of_checked [1] (by decide) ran
  have levels : engine.storage.overlays 1 7 = [{}] := by
    cases ran
    rfl
  have copied : (engine.storage.visibleTuples 1 8).length = 2 ∧
      engine.storage.visibleTuples 1 8 = engine.storage.scannedTuples 1 8 ∧
      (engine.storage.relations 7).nextBlock = 0 := by
    cases ran
    decide +kernel
  have clean : Overlays.Clean (engine.storage.overlays 1 7)
      (engine.storage.relations 7).nextBlock := by
    rw [levels]
    exact ⟨fun _ _ => rfl, fun _ _ => rfl, fun _ _ => rfl⟩
  have undoable : Undoable (engine.storage.relations 7) (engine.storage.overlays 1 7) := by
    rw [levels]
    intro _ entry member
    cases member
  refine ⟨engine, ran, copied.1, (replaceRelationFrom_replaces_iff reached (by decide) clean ?_).2.mpr
    ⟨copied.2.1 ▸ .refl _, undoable⟩⟩
  rw [copied.1, copied.2.2]
  decide

/-- An update in place, whose redirect stays when the relation is cleared and
    its tid space starts again. -/
def redirectPastClear : List Request :=
  [⟨1, .call (.insert 7 [] .skip none false)⟩, ⟨1, .call (.insert 8 [] .skip none false)⟩,
    ⟨1, .call (.insert 8 [⟨true, false, 0, [], 0⟩] .skip none false)⟩, ⟨1, .call .xactCommit⟩,
    ⟨1, .call .xactBegin⟩, ⟨1, .call (.update 7 ⟨0, 1⟩ [] .skip true none)⟩,
    ⟨1, .call (.clear 7)⟩]

/-- A row that another session commits to a page that was checkpointed before. -/
def rowPastCheckpoint : List Request :=
  [⟨1, .call .xactBegin⟩, ⟨1, .call (.insert 7 [] .skip none false)⟩,
    ⟨2, .call (.insert 7 [] .skip none false)⟩, ⟨2, .call .xactCommit⟩]

/-- The first copy is fetched through the old redirect, so the second is seen
    twice; and the abort of a replacement loses the other session's row. -/
theorem replacement_seen_through_redirect_and_not_undone :
    (∃ engine, Reaches (step bareCatalog) Respects .initial engine ∧
      run (step bareCatalog) .initial redirectPastClear = some engine ∧
      ¬((engine.storage.replaceRelationFrom bareCatalog 1 7 8).1.visibleTuples 1 7).Perm
        (engine.storage.scannedTuples 1 8)) ∧
    ∃ engine, Reaches (step bareCatalog) Respects .initial engine ∧
      run (step bareCatalog) .initial rowPastCheckpoint = some engine ∧
      ((engine.storage.xactAbort 1).relations 7).visibleTids [] = [⟨0, 2⟩] ∧
      (((engine.storage.replaceRelationFrom bareCatalog 1 7 8).1.xactAbort 1).relations 7).visibleTids
        [] = [] := by
  constructor
  · obtain ⟨engine, ran⟩ : ∃ engine,
        run (step bareCatalog) .initial redirectPastClear = some engine := ⟨_, rfl⟩
    refine ⟨engine, reaches_of_checked [1] (by decide) ran, ran, ?_⟩
    cases ran
    decide +kernel
  · obtain ⟨engine, ran⟩ : ∃ engine,
        run (step bareCatalog) .initial rowPastCheckpoint = some engine := ⟨_, rfl⟩
    refine ⟨engine, reaches_of_checked [1, 2] (by decide) ran, ran, ?_⟩
    cases ran
    decide +kernel

end Engine

end FastPg.Storage
