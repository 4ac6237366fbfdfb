import FastPg.Lib.Dict
import FastPg.Storage.Levels
import Mathlib.Logic.Relation

/-! # Row operations as moves

Every row operation of a session is a sequence of a few moves: start a
transaction, compress a redirect chain, append a pending row, stamp it, mark a
row invalid, redirect it, or write entries that no row depends on. What the
operations keep is proved once per move.
-/

namespace FastPg.Storage

open Assoc Redirect Option RelationStorage RelationOverlay Overlays
open List hiding insert lookup

/-- Two levels that agree on everything rows depend on. -/
structure SameRows (a b : RelationOverlay) : Prop where
  pendingPages : a.pendingPages = b.pendingPages
  relationCheckpoint : a.relationCheckpoint = b.relationCheckpoint
  pageCheckpoints : a.pageCheckpoints = b.pageCheckpoints
  insertedTids : a.insertedTids = b.insertedTids
  invalidatedTids : a.invalidatedTids = b.invalidatedTids
  hotRedirectInserts : a.hotRedirectInserts = b.hotRedirectInserts
  clearedRelation : a.clearedRelation = b.clearedRelation

variable {a b : RelationOverlay}

theorem SameRows.refl : SameRows a a := ⟨rfl, rfl, rfl, rfl, rfl, rfl, rfl⟩

theorem SameRows.trans {c : RelationOverlay} (first : SameRows a b) (second : SameRows b c) :
    SameRows a c :=
  ⟨first.1.trans second.1, first.2.trans second.2, first.3.trans second.3, first.4.trans second.4,
    first.5.trans second.5, first.6.trans second.6, first.7.trans second.7⟩

/-- The maps of a level hold no key twice. Stamps are on rows that the level
    inserted or invalidated, and HOT redirects leave rows that it invalidated. -/
structure RelationOverlay.Tidy (overlay : RelationOverlay) : Prop where
  insertedCids : (overlay.insertedCids.map Prod.fst).Nodup
  invalidatedMetadata : (overlay.invalidatedMetadata.map Prod.fst).Nodup
  hotRedirectInserts : (overlay.hotRedirectInserts.map Prod.fst).Nodup
  updateRedirectInserts : (overlay.updateRedirectInserts.map Prod.fst).Nodup
  primaryKeyInserts : (overlay.primaryKeyInserts.map Prod.fst).Nodup
  stamped : ∀ tid ∈ overlay.insertedCids.map Prod.fst, tid ∈ overlay.insertedTids
  struck : ∀ tid ∈ overlay.invalidatedMetadata.map Prod.fst, tid ∈ overlay.invalidatedTids
  moved : ∀ tid ∈ overlay.hotRedirectInserts.map Prod.fst, tid ∈ overlay.invalidatedTids

namespace RelationOverlay.Tidy

variable {overlay : RelationOverlay}

theorem empty : Tidy {} := by constructor <;> simp

section

variable (tidy : overlay.Tidy)
include tidy

theorem setInsertCid {tid : Tid} (own : tid ∈ overlay.insertedTids) (cid : Nat) :
    (overlay.setInsertCid tid cid).Tidy where
  __ := tidy
  insertedCids := Dict.keyed_upsert tid cid tidy.insertedCids
  stamped := by
    intro other mem
    rcases Dict.mem_keys_upsert.mp mem with rfl | old
    · exact own
    · exact tidy.stamped other old

theorem invalidate (tid : Tid) : (overlay.invalidate tid).Tidy where
  __ := tidy
  struck := fun other mem => mem_pushUnique.mpr (.inl (tidy.struck other mem))
  moved := fun other mem => mem_pushUnique.mpr (.inl (tidy.moved other mem))

theorem setInvalidateMetadata {tid : Tid} (struck : tid ∈ overlay.invalidatedTids) (xid cid : Nat) :
    (overlay.setInvalidateMetadata tid xid cid).Tidy where
  __ := tidy
  invalidatedMetadata := Dict.keyed_upsert tid _ tidy.invalidatedMetadata
  struck := by
    intro other mem
    rcases Dict.mem_keys_upsert.mp mem with rfl | old
    · exact struck
    · exact tidy.struck other old

theorem insertHotRedirect {old : Tid} (struck : old ∈ overlay.invalidatedTids) (new : Tid) :
    (overlay.insertHotRedirect old new).Tidy := by
  unfold RelationOverlay.insertHotRedirect
  split
  · exact tidy
  · have moved : ∀ tid ∈ (upsert overlay.hotRedirectInserts old new).map Prod.fst,
        tid ∈ overlay.invalidatedTids := by
      intro tid mem
      rcases Dict.mem_keys_upsert.mp mem with rfl | known
      · exact struck
      · exact tidy.moved tid known
    exact { tidy with
      hotRedirectInserts := Dict.keyed_upsert old new tidy.hotRedirectInserts
      moved := moved }

theorem insertUpdateRedirect (old new : Tid) :
    (overlay.insertUpdateRedirect old new).Tidy := by
  unfold RelationOverlay.insertUpdateRedirect
  split
  · exact tidy
  · exact { tidy with
      updateRedirectInserts := Dict.keyed_upsert old new tidy.updateRedirectInserts }

theorem insertPrimaryKey (key : IndexKey) (tid : Tid) :
    (overlay.insertPrimaryKey key tid).Tidy :=
  { tidy with primaryKeyInserts := Dict.keyed_upsert key tid tidy.primaryKeyInserts }

theorem removePrimaryKeyInsert (key : IndexKey) :
    (overlay.removePrimaryKeyInsert key).Tidy :=
  { tidy with
    primaryKeyInserts := tidy.primaryKeyInserts.sublist (filter_sublist.map Prod.fst) }

theorem deletePrimaryKey (key : IndexKey) :
    (overlay.deletePrimaryKey key).Tidy := { tidy with }

theorem insertIndexEntry (indexRelid : Nat) (key : IndexKey) (tid : Tid) :
    (overlay.insertIndexEntry indexRelid key tid).Tidy := { tidy with }

end

end RelationOverlay.Tidy

namespace Local

/-- The levels redirects are resolved through: those of the session, or none
    where it has not changed the relation. -/
def Resolves (here : Local) (levels : Overlays) : Prop :=
  levels = here.overlays ∨ (levels = [] ∧ Overlays.hasVisibilityDeltas here.overlays = false)

/-- A tid that something is stored at: a row of the relation or an own page. -/
def Stored (here : Local) (tid : Tid) : Prop :=
  (here.relation.row tid).isSome ∨ tid.block ∈ Overlays.blocks here.overlays

/-- The tids a delete can end on: a stored tid, the target of a HOT redirect
    where the walk was cut off, or a tid whose redirect the walk left out. -/
def Reached (here : Local) (tid : Tid) : Prop :=
  here.Stored tid ∨ (∃ old, (old, tid) ∈ here.relation.hotRedirects) ∨
    (∃ overlay ∈ here.overlays, ∃ old, (old, tid) ∈ overlay.hotRedirectInserts) ∨
    (Overlays.hasVisibilityDeltas here.overlays = false ∧
      (Overlays.tidRedirect here.overlays tid).isSome)

/-- The moves a row operation is made of. -/
inductive Move (catalog : RelationCatalog) : Local → Local → Prop where
  | start (here : Local) : Move catalog here here.ensureTransaction
  | compress (here : Local) (levels : Overlays) (tid : Tid) (resolves : here.Resolves levels) :
      Move catalog here { here with
        relation := (here.relation.resolveTidRedirectCompress levels tid).1 }
  | compressUpdate (here : Local) (levels : Overlays) (tid : Tid) (resolves : here.Resolves levels) :
      Move catalog here { here with
        relation := (here.relation.resolveUpdateRedirectCompress levels tid).1 }
  | limit (here : Local) (maxTuples : Nat) :
      Move catalog here { here with relation := here.relation.setMaxTuplesPerBlock maxTuples }
  | append (here : Local) (tuple : Bytes) :
      Move catalog here (here.appendPendingTuple catalog tuple).1
  | appendOwn {relation : RelationStorage} {top top' : RelationOverlay} {outer : Overlays}
      {tuple : Bytes} {tid : Tid}
      (appended : top.appendPendingTupleToExistingPage tuple relation.maxTuplesPerBlock =
        (top', some tid)) :
      Move catalog ⟨relation, top :: outer⟩ ⟨relation, top'.insertTid tid :: outer⟩
  | stampInsert (here : Local) (tid : Tid) (xid cid : Nat)
      (own : ∀ top ∈ here.overlays.head?, tid ∈ top.insertedTids) :
      Move catalog here (here.setInsertMetadata tid xid cid)
  | stampXmax (here : Local) (tid : Tid) (xmax : Nat) :
      Move catalog here (here.setRowXmax tid xmax)
  | invalidate (here : Local) (tid : Tid) (reached : here.Reached tid) :
      Move catalog here (here.modifyTop fun top => top.invalidate tid)
  | redirect {relation : RelationStorage} {top : RelationOverlay} {outer : Overlays} {old new : Tid}
      (stored : Stored ⟨relation, top :: outer⟩ old) (own : new ∈ top.insertedTids)
      (struck : old ∈ top.invalidatedTids) :
      Move catalog ⟨relation, top :: outer⟩ ⟨relation, top.insertHotRedirect old new :: outer⟩
  | note (here : Local) (f : RelationOverlay → RelationOverlay)
      (same : ∀ top, SameRows (f top) top)
      (tidy : ∀ top ∈ here.overlays.head?, top.Tidy → (f top).Tidy) :
      Move catalog here (here.modifyTop f)

abbrev Moves (catalog : RelationCatalog) : Local → Local → Prop :=
  Relation.ReflTransGen (Move catalog)

end Local

/-! ## Compression touches redirects only -/

/-- Two relations that differ in their redirects at most. -/
structure SameRelation (a b : RelationStorage) : Prop where
  pages : a.pages = b.pages
  nextBlock : a.nextBlock = b.nextBlock
  liveTids : a.liveTids = b.liveTids
  liveTupleCount : a.liveTupleCount = b.liveTupleCount

theorem SameRelation.trans {a b c : RelationStorage} (first : SameRelation a b)
    (second : SameRelation b c) : SameRelation a c :=
  ⟨first.1.trans second.1, first.2.trans second.2, first.3.trans second.3, first.4.trans second.4⟩

theorem SameRelation.row {a b : RelationStorage} (same : SameRelation a b) : a.row = b.row := by
  funext tid
  simp [RelationStorage.row, RelationStorage.page, same.pages]

theorem SameRelation.grows {a b : RelationStorage} (same : SameRelation b a) (sound : a.Sound) :
    Grows a b :=
  .of_pages sound same.pages same.nextBlock.ge same.liveTids same.liveTupleCount

namespace RelationStorage

variable (relation : RelationStorage)

theorem insertHotRedirect_same (oldTid newTid : Tid) :
    SameRelation (relation.insertHotRedirect oldTid newTid) relation := ⟨rfl, rfl, rfl, rfl⟩

@[simp] theorem insertHotRedirect_hotRedirects (relation : RelationStorage) (oldTid newTid : Tid) :
    (relation.insertHotRedirect oldTid newTid).hotRedirects =
      upsert relation.hotRedirects oldTid newTid := rfl

theorem foldl_insertHotRedirect_same (tids : List Tid) (target : Tid) (relation : RelationStorage) :
    SameRelation (tids.foldl (fun relation tid => relation.insertHotRedirect tid target) relation)
      relation := by
  induction tids generalizing relation with
  | nil => exact ⟨rfl, rfl, rfl, rfl⟩
  | cons tid rest ih => exact (ih _).trans (insertHotRedirect_same relation tid target)

theorem foldl_insertHotRedirect_lookup (tids : List Tid) (target : Tid)
    (relation : RelationStorage) (tid : Tid) :
    lookup (tids.foldl (fun relation tid => relation.insertHotRedirect tid target)
      relation).hotRedirects tid =
        if tid ∈ tids then some target else lookup relation.hotRedirects tid := by
  induction tids generalizing relation with
  | nil => simp
  | cons first rest ih =>
    rw [foldl_cons, ih, insertHotRedirect_hotRedirects, lookup_upsert]
    by_cases later : tid ∈ rest
    · simp [later]
    · by_cases here : first = tid
      · simp [here]
      · simp [later, here, Ne.symm here]

theorem resolveTidRedirectCompress_same (levels : Overlays) (tid : Tid) :
    SameRelation (relation.resolveTidRedirectCompress levels tid).1 relation := by
  unfold resolveTidRedirectCompress
  dsimp only
  split
  · exact foldl_insertHotRedirect_same _ _ relation
  · exact ⟨rfl, rfl, rfl, rfl⟩

theorem resolveTidRedirectCompress_final (levels : Overlays) (tid : Tid) :
    (relation.resolveTidRedirectCompress levels tid).2 =
      relation.resolveTidRedirect levels tid := by
  unfold resolveTidRedirectCompress resolveTidRedirect hotNext
  dsimp only
  split <;> exact walk_final _ _ _ _ _ _

theorem resolveUpdateRedirectCompress_same (levels : Overlays) (tid : Tid) :
    SameRelation (relation.resolveUpdateRedirectCompress levels tid).1 relation := by
  unfold resolveUpdateRedirectCompress
  dsimp only
  split <;> exact ⟨rfl, rfl, rfl, rfl⟩

@[simp] theorem resolveUpdateRedirectCompress_hotRedirects (relation : RelationStorage)
    (levels : Overlays) (tid : Tid) :
    (relation.resolveUpdateRedirectCompress levels tid).1.hotRedirects = relation.hotRedirects := by
  unfold resolveUpdateRedirectCompress
  dsimp only
  split <;> rfl

/-- Where a compressing resolution ends: at its start, with nothing changed, or
    at the target of a redirect. -/
theorem resolveTidRedirectCompress_end (levels : Overlays) (tid : Tid) :
    ((relation.resolveTidRedirectCompress levels tid).1 = relation ∧
      (relation.resolveTidRedirectCompress levels tid).2 = tid ∧
      relation.hotNext levels tid = none) ∨
    (∃ old, (old, (relation.resolveTidRedirectCompress levels tid).2) ∈
      (relation.resolveTidRedirectCompress levels tid).1.hotRedirects) ∨
    ∃ overlay ∈ levels, ∃ old, (old, (relation.resolveTidRedirectCompress levels tid).2) ∈
      overlay.hotRedirectInserts := by
  have final := resolveTidRedirectCompress_final relation levels tid
  have finish := follow_end (relation.hotNext levels) 999999 tid
  change (relation.resolveTidRedirect levels tid = tid ∧ _) ∨
    ∃ b, _ = some (relation.resolveTidRedirect levels tid) at finish
  rw [← final] at finish
  cases finish with
  | inl stays =>
    refine .inl ⟨?_, stays.1, stays.2⟩
    have kept : (relation.resolveTidRedirectCompress levels tid).2 = tid := stays.1
    unfold resolveTidRedirectCompress at kept ⊢
    dsimp only at kept ⊢
    split
    · rename_i moved
      rw [if_pos moved] at kept
      exact absurd kept moved.2
    · rfl
  | inr target =>
    obtain ⟨old, hop⟩ := target
    unfold hotNext orElse at hop
    cases upper : tidRedirect levels old with
    | some new =>
      simp only [upper, some_or, some.injEq] at hop
      obtain ⟨overlay, mem, found⟩ := exists_of_findSome?_eq_some upper
      exact .inr (.inr ⟨overlay, mem, old, hop ▸ mem_of_lookup found⟩)
    | none =>
      simp only [upper, none_or] at hop
      refine .inr (.inl ?_)
      generalize reached : (relation.resolveTidRedirectCompress levels tid).2 = target at hop
      unfold resolveTidRedirectCompress at reached ⊢
      dsimp only at reached ⊢
      split
      · rename_i moved
        rw [if_pos moved] at reached
        dsimp only at reached
        rw [reached] at moved ⊢
        by_cases visited : old ∈ (walk (tidRedirect levels) (lookup relation.hotRedirects)
            maxHotRedirectHops false [] tid).visited.filter (· ≠ target)
        · refine ⟨old, mem_of_lookup ?_⟩
          rw [foldl_insertHotRedirect_lookup, if_pos visited]
        · refine ⟨old, mem_of_lookup ?_⟩
          rw [foldl_insertHotRedirect_lookup, if_neg visited, hop]
      · exact ⟨old, mem_of_lookup hop⟩

end RelationStorage

/-! ## What a move keeps -/

/-- Two levels with the same pages and inserted rows. -/
structure SamePages (a b : RelationOverlay) : Prop where
  pendingPages : a.pendingPages = b.pendingPages
  relationCheckpoint : a.relationCheckpoint = b.relationCheckpoint
  pageCheckpoints : a.pageCheckpoints = b.pageCheckpoints
  insertedTids : a.insertedTids = b.insertedTids
  clearedRelation : a.clearedRelation = b.clearedRelation

variable {outer : Overlays}

theorem SameRows.pages (same : SameRows a b) : SamePages a b :=
  ⟨same.pendingPages, same.relationCheckpoint, same.pageCheckpoints, same.insertedTids,
    same.clearedRelation⟩

theorem SamePages.blocks (same : SamePages a b) : a.blocks = b.blocks := by
  simp [RelationOverlay.blocks, same.pendingPages]

theorem SamePages.cleared (same : SamePages a b) : a.cleared = b.cleared := by
  simp [RelationOverlay.cleared, same.clearedRelation]

theorem LevelSound.congr {relation : RelationStorage} (level : LevelSound relation b outer)
    (same : SamePages a b) : LevelSound relation a outer where
  sound := level.sound
  distinct := same.blocks ▸ level.distinct
  unfiled := same.blocks ▸ level.unfiled
  below := same.blocks ▸ level.below
  pending := by
    intro tid entry found
    rw [pendingRow_congr same.pendingPages] at found
    exact level.pending tid entry found
  placed := by
    intro tid mem
    rw [same.insertedTids] at mem
    unfold Placed
    rw [pendingRow_congr same.pendingPages]
    exact level.placed tid mem
  apart := by
    rw [same.cleared, same.blocks]
    exact level.apart
  checkpointed := by
    rw [same.relationCheckpoint, same.pageCheckpoints]
    exact level.checkpointed

/-- The innermost level changed, or a transaction was started; a clear stays a clear. -/
def Reshaped (overlays overlays' : Overlays) : Prop :=
  overlays' = overlays ∨
    (overlays = [] ∧ ∃ top, overlays' = [top] ∧ top.clearedRelation = none) ∨
    ∃ top top' outer, overlays = top :: outer ∧ overlays' = top' :: outer ∧
      top'.clearedRelation = top.clearedRelation

theorem Reshaped.trans {a b c : Overlays} (first : Reshaped a b) (second : Reshaped b c) :
    Reshaped a c := by
  rcases first with rfl | ⟨rfl, top, rfl, uncleared⟩ | ⟨top, top', outer, rfl, rfl, kept⟩
  · exact second
  · rcases second with rfl | ⟨empty, -⟩ | ⟨_, top', _, same, rfl, kept⟩
    · exact .inr (.inl ⟨rfl, top, rfl, uncleared⟩)
    · cases empty
    · cases same
      exact .inr (.inl ⟨rfl, top', rfl, kept.trans uncleared⟩)
  · rcases second with rfl | ⟨empty, -⟩ | ⟨_, top'', _, same, rfl, kept'⟩
    · exact .inr (.inr ⟨top, top', outer, rfl, rfl, kept⟩)
    · cases empty
    · cases same
      exact .inr (.inr ⟨top, top'', outer, rfl, rfl, kept'.trans kept⟩)

/-- What a row operation does to the relation and to the levels of its session. -/
structure Writes (here here' : Local) : Prop where
  stack : StackSound here'.relation here'.overlays
  grows : Grows here.relation here'.relation
  shape : Reshaped here.overlays here'.overlays
  blocks : ∀ block ∈ Overlays.blocks here'.overlays,
    block ∈ Overlays.blocks here.overlays ∨ here.relation.nextBlock ≤ block
  keptBlocks : ∀ block ∈ Overlays.blocks here.overlays, block ∈ Overlays.blocks here'.overlays
  inserted : ∀ tid ∈ Overlays.inserted here'.overlays,
    tid ∈ Overlays.inserted here.overlays ∨ here.relation.row tid = none

namespace Writes

variable {here : Local} {top top' : RelationOverlay} {outer : Overlays}

theorem refl (stack : StackSound here.relation here.overlays) : Writes here here :=
  ⟨stack, .refl stack.sound, .inl rfl, fun _ => .inl, fun _ => id, fun _ => .inl⟩

theorem trans {a b c : Local} (first : Writes a b) (second : Writes b c) : Writes a c where
  stack := second.stack
  grows := first.grows.trans second.grows
  shape := first.shape.trans second.shape
  blocks := by
    intro block mem
    cases second.blocks block mem with
    | inl middle => exact first.blocks block middle
    | inr fresh => exact .inr (first.grows.frontier.trans fresh)
  keptBlocks := fun block mem => second.keptBlocks block (first.keptBlocks block mem)
  inserted := by
    intro tid mem
    cases second.inserted tid mem with
    | inl middle => exact first.inserted tid middle
    | inr missing =>
      refine .inr ?_
      cases found : a.relation.row tid with
      | none => rfl
      | some entry =>
        have kept := first.grows.rows tid (by simp [found])
        simp [missing] at kept

variable {relation : RelationStorage}

theorem of_relation (stack : StackSound here.relation here.overlays)
    (grows : Grows here.relation relation) :
    Writes here { here with relation := relation } :=
  ⟨stack.grows grows, grows, .inl rfl, fun _ => .inl, fun _ => id, fun _ => .inl⟩

/-- A change of the innermost level, with the relation changed along. -/
theorem of_top {relation' : RelationStorage} (stack : StackSound relation (top :: outer))
    (grows : Grows relation relation') (level : LevelSound relation' top' outer)
    (kept : top'.clearedRelation = top.clearedRelation)
    (blocks : ∀ block ∈ top'.blocks, block ∈ top.blocks ∨ relation.nextBlock ≤ block)
    (keptBlocks : ∀ block ∈ top.blocks, block ∈ top'.blocks)
    (inserted : ∀ tid ∈ top'.insertedTids, tid ∈ top.insertedTids ∨ relation.row tid = none) :
    Writes ⟨relation, top :: outer⟩ ⟨relation', top' :: outer⟩ := by
  have sameClear : top'.cleared = top.cleared := by simp [cleared, kept]
  constructor
  · refine ⟨level, ?_⟩
    have tail := stack.2
    rw [kept]
    cases saved : top.clearedRelation with
    | some snapshot =>
      rw [saved] at tail
      exact tail
    | none =>
      rw [saved] at tail
      exact StackSound.grows tail grows
  · exact grows
  · exact .inr (.inr ⟨top, top', outer, rfl, rfl, kept⟩)
  · intro block mem
    cases mem_blocks_cons.mp mem with
    | inl own =>
      cases blocks block own with
      | inl old => exact .inl (mem_blocks_cons.mpr (.inl old))
      | inr fresh => exact .inr fresh
    | inr outside => exact .inl (mem_blocks_cons.mpr (.inr (sameClear ▸ outside)))
  · intro block mem
    cases mem_blocks_cons.mp mem with
    | inl own => exact mem_blocks_cons.mpr (.inl (keptBlocks block own))
    | inr outside => exact mem_blocks_cons.mpr (.inr (sameClear.symm ▸ outside))
  · intro tid mem
    cases mem_inserted_cons.mp mem with
    | inl own =>
      cases inserted tid own with
      | inl old => exact .inl (mem_inserted_cons.mpr (.inl old))
      | inr fresh => exact .inr fresh
    | inr outside => exact .inl (mem_inserted_cons.mpr (.inr (sameClear ▸ outside)))

theorem of_samePages (stack : StackSound relation (top :: outer)) (same : SamePages top' top) :
    Writes ⟨relation, top :: outer⟩ ⟨relation, top' :: outer⟩ :=
  of_top stack (.refl stack.sound) (stack.1.congr same) same.clearedRelation
    (fun _ mem => .inl (same.blocks ▸ mem)) (fun _ mem => same.blocks ▸ mem)
    (fun _ mem => .inl (same.insertedTids ▸ mem))

theorem of_modifyTop {f : RelationOverlay → RelationOverlay}
    (stack : StackSound here.relation here.overlays) (same : ∀ top, SamePages (f top) top) :
    Writes here (here.modifyTop f) := by
  obtain ⟨relation, overlays⟩ := here
  cases overlays with
  | nil => exact refl stack
  | cons top outer => exact of_samePages stack (same top)

theorem start {here : Local} (stack : StackSound here.relation here.overlays) :
    Writes here here.ensureTransaction := by
  obtain ⟨relation, overlays⟩ := here
  cases overlays with
  | cons top outer => exact refl stack
  | nil =>
    have level : LevelSound relation {} [] :=
      ⟨stack, by simp [RelationOverlay.blocks], by simp [RelationOverlay.blocks],
        by simp [RelationOverlay.blocks], by simp [RelationOverlay.pendingRow,
        RelationOverlay.pendingPage], by simp, by simp [RelationOverlay.blocks], fun _ => rfl⟩
    exact ⟨⟨level, stack⟩, .refl stack, .inr (.inl ⟨rfl, {}, rfl, rfl⟩), by
      simp [Local.ensureTransaction, Overlays.blocks, Overlays.segment, RelationOverlay.cleared,
        RelationOverlay.blocks], by simp [Overlays.blocks, Overlays.segment], by
      simp [Local.ensureTransaction, Overlays.inserted, Overlays.segment,
        cleared]⟩

/-- Something stored stays stored. -/
theorem stored {here' : Local} (writes : Writes here here') {tid : Tid} (stored : here.Stored tid) :
    here'.Stored tid := by
  cases stored with
  | inl row => exact .inl (writes.grows.rows tid row)
  | inr paged => exact .inr (writes.keptBlocks _ paged)

end Writes

/-! ## Appending -/

namespace RelationStorage

variable {relation : RelationStorage} {relation' : RelationStorage}

theorem row_none_of_not_physical {tid : Tid}
    (unfiled : ¬ relation.physical tid.block) : relation.row tid = none := by
  cases found : relation.row tid with
  | none => rfl
  | some entry => exact absurd (physical_of_row found) unfiled

theorem appendTargetBlock_grows {tupleLen : Nat} {result : Option Nat}
    (h : relation.appendTargetBlock tupleLen = (relation', result)) (sound : relation.Sound) :
    Grows relation relation' := by
  obtain ⟨sound', rows, frontier, filed, -⟩ := appendTargetBlock_spec h sound
  refine ⟨sound', frontier, ?_, filed, ?_⟩
  · intro tid found
    rwa [rows]
  · intro tid bytes
    rw [rows]

theorem appendPendingTuple_grows {block : Nat} {tuple : Bytes} {result : Option Tid}
    (h : relation.appendPendingTuple block tuple = (relation', result)) (sound : relation.Sound) :
    Grows relation relation' := by
  have sound' := appendPendingTuple_sound h sound
  obtain ⟨maps, -, physical, outcome⟩ := appendPendingTuple_spec h
  refine ⟨sound', maps.nextBlock.ge, ?_, fun block paged => .inl ((physical block).mp paged), ?_⟩
  · intro tid found
    rcases outcome with ⟨-, same⟩ | ⟨new, -, -, -, -, rows⟩
    · rwa [same]
    · rw [rows]
      split
      · rfl
      · exact found
  · intro tid bytes
    rcases outcome with ⟨-, same⟩ | ⟨new, -, -, -, missing, rows⟩
    · rw [same]
    · rw [rows]
      split
      · rename_i here
        simp [here, missing]
      · rfl

end RelationStorage

/-- A level whose own pages changed by at most one new pending row, recorded as
    inserted. -/
theorem LevelSound.addRow {relation' : RelationStorage} {top top' : RelationOverlay}
    (level : LevelSound relation' top outer) (distinct : top'.blocks.Nodup)
    (blocks : ∀ block ∈ top'.blocks, block ∈ top.blocks ∨
      (¬ relation'.physical block ∧ block < relation'.nextBlock ∧
        (top.cleared = false → block ∉ blocks outer)))
    (rows : ∀ tid entry, top'.pendingRow tid = some entry →
      entry.1 = .pending ∨ top.pendingRow tid = some entry)
    (kept : ∀ tid, (top.pendingRow tid).isSome → (top'.pendingRow tid).isSome)
    (inserted : ∀ tid ∈ top'.insertedTids, tid ∈ top.insertedTids ∨ top'.Placed relation' tid)
    (cleared : top'.clearedRelation = top.clearedRelation)
    (checkpointed : top'.relationCheckpoint = none → top'.pageCheckpoints = []) :
    LevelSound relation' top' outer where
  sound := level.sound
  distinct := distinct
  unfiled := by
    intro block mem
    cases blocks block mem with
    | inl old => exact level.unfiled block old
    | inr new => exact new.1
  below := by
    intro block mem
    cases blocks block mem with
    | inl old => exact level.below block old
    | inr new => exact new.2.1
  pending := by
    intro tid entry found
    cases rows tid entry found with
    | inl pending => exact pending
    | inr old => exact level.pending tid entry old
  placed := by
    intro tid mem
    cases inserted tid mem with
    | inr placed => exact placed
    | inl old =>
      cases level.placed tid old with
      | inl paged => exact .inl (kept tid paged)
      | inr shared => exact .inr shared
  apart := by
    intro uncleared block mem
    have oldUncleared : top.cleared = false := by
      simpa [RelationOverlay.cleared, cleared] using uncleared
    cases blocks block mem with
    | inl old => exact level.apart oldUncleared block old
    | inr new => exact new.2.2 oldUncleared
  checkpointed := checkpointed

namespace Local

variable {relation relation' : RelationStorage} {top top' : RelationOverlay} {outer : Overlays}
  {tuple : Bytes} {result : Option Tid}

/-- A new pending row in an own page, claimed by the level. -/
theorem LevelSound.claim {pages : List Page} {tid : Tid} (level : LevelSound relation top outer)
    (distinct : blocks { top with pendingPages := pages } |>.Nodup)
    (blocks : ∀ block ∈ blocks { top with pendingPages := pages },
      block ∈ top.blocks ∨ (¬ relation.physical block ∧ block < relation.nextBlock ∧
        (top.cleared = false → block ∉ blocks outer)))
    (rows : ∀ other, pendingRow { top with pendingPages := pages } other =
      if other = tid then some (.pending, tuple) else top.pendingRow other) :
    LevelSound relation (insertTid { top with pendingPages := pages } tid) outer := by
  have stored : ∀ other, pendingRow
      (insertTid { top with pendingPages := pages } tid) other =
      if other = tid then some (.pending, tuple) else top.pendingRow other := rows
  refine level.addRow distinct blocks ?_ ?_ ?_ rfl level.checkpointed
  · intro other entry found
    rw [stored] at found
    split at found
    · cases found
      exact .inl rfl
    · exact .inr found
  · intro other found
    rw [stored]
    split
    · rfl
    · exact found
  · intro other mem
    cases mem_pushUnique.mp mem with
    | inl old => exact .inl old
    | inr new => exact .inr (.inl (by rw [stored, if_pos new]; rfl))

theorem appendExisting_writes {limit : Option Nat} (stack : StackSound relation (top :: outer))
    (h : top.appendPendingTupleToExistingPage tuple limit = (top', result)) :
    Writes ⟨relation, top :: outer⟩ ⟨relation, top'.claim result :: outer⟩ := by
  obtain ⟨pages, rfl, sameBlocks, outcome⟩ :=
    appendPendingTupleToExistingPage_spec stack.1.distinct h
  have old : ∀ block ∈ blocks { top with pendingPages := pages }, block ∈ top.blocks :=
    fun _ mem => sameBlocks ▸ mem
  cases outcome with
  | inl unchanged =>
    obtain ⟨rfl, rows⟩ := unchanged
    refine Writes.of_top stack (.refl stack.sound) ?_ rfl (fun _ mem => .inl (old _ mem))
      (fun _ mem => sameBlocks ▸ mem) (fun _ mem => .inl mem)
    exact stack.1.addRow (sameBlocks ▸ stack.1.distinct)
      (fun _ mem => .inl (old _ mem)) (fun tid entry found => .inr (rows tid ▸ found))
      (fun tid found => rows tid ▸ found) (fun _ mem => .inl mem) rfl stack.1.checkpointed
  | inr added =>
    obtain ⟨tid, rfl, own, -, rows⟩ := added
    refine Writes.of_top stack (.refl stack.sound) ?_ rfl (fun _ mem => .inl (old _ mem))
      (fun _ mem => sameBlocks ▸ mem) fun other mem => ?_
    · exact LevelSound.claim stack.1 (sameBlocks ▸ stack.1.distinct)
        (fun _ mem => .inl (old _ mem)) rows
    · refine (mem_pushUnique.mp mem).imp_right fun new => ?_
      exact row_none_of_not_physical (new ▸ stack.1.unfiled _ own)

/-- Checkpoints are for rollback only. -/
theorem checkpoint_writes {checkpoint : Option RelationCheckpoint}
    {pages : List (Nat × PageCheckpoint)} (stack : StackSound relation (top :: outer))
    (taken : checkpoint ≠ none) :
    Writes ⟨relation, top :: outer⟩ ⟨relation, { top with
      relationCheckpoint := checkpoint, pageCheckpoints := pages } :: outer⟩ := by
  refine Writes.of_top stack (.refl stack.sound) ?_ rfl (fun _ => .inl) (fun _ => id) (fun _ => .inl)
  exact stack.1.addRow stack.1.distinct (fun _ => .inl) (fun _ _ found => .inr found)
    (fun _ => id) (fun _ => .inl) rfl fun absent => absurd absent taken

theorem insertShared_writes {block : Nat} (stack : StackSound relation (top :: outer))
    (h : relation.appendPendingTuple block tuple = (relation', result)) :
    Writes ⟨relation, top :: outer⟩ ⟨relation', top.claim result :: outer⟩ := by
  have grows := appendPendingTuple_grows h stack.sound
  obtain ⟨-, -, -, outcome⟩ := appendPendingTuple_spec h
  cases outcome with
  | inl unchanged =>
    obtain ⟨rfl, -⟩ := unchanged
    exact Writes.of_relation stack grows
  | inr added =>
    obtain ⟨tid, rfl, -, -, missing, rows⟩ := added
    have level : LevelSound relation' top outer := stack.1.keeps (grows.keeps stack)
    refine Writes.of_top stack grows ?_ rfl (fun _ => .inl) (fun _ => id) ?_
    · refine level.addRow level.distinct (fun _ => .inl) (fun _ _ found => .inr found)
        (fun _ => id) ?_ rfl level.checkpointed
      intro other mem
      cases mem_pushUnique.mp mem with
      | inl old => exact .inl old
      | inr new =>
        refine .inr (.inr ?_)
        rw [rows, if_pos new]
        exact ⟨rfl, by simp⟩
    · intro other mem
      cases mem_pushUnique.mp mem with
      | inl old => exact .inl old
      | inr new => exact .inr (new ▸ missing)

variable {catalog : RelationCatalog}

/-- A row in a page of a new block. -/
theorem insertReserved_writes {reserved : RelationStorage} {block : Nat}
    (stack : StackSound relation (top :: outer))
    (reservation : relation.reserveBlock = some (reserved, block))
    (appended : top.appendPendingTupleToNewPage (Page.new block tuple.length) tuple = (top', result)) :
    Writes ⟨relation, top :: outer⟩ ⟨{ reserved with
      pendingReservedBlocks := reserved.pendingReservedBlocks.insert block },
      top'.claim result :: outer⟩ := by
  unfold reserveBlock at reservation
  split at reservation
  · cases reservation
    have grows : Grows relation { relation with
        nextBlock := relation.nextBlock + 1
        pendingReservedBlocks := relation.pendingReservedBlocks.insert relation.nextBlock } :=
      .of_pages stack.sound rfl (Nat.le_succ _) rfl rfl
    have raised := stack.grows grows
    have fresh : relation.nextBlock ∉ blocks (top :: outer) := fun mem =>
      absurd (stack.unfiled mem).2 (lt_irrefl _)
    have freshTop : relation.nextBlock ∉ top.blocks := fun mem =>
      fresh (mem_blocks_cons.mpr (.inl mem))
    have unfiled : ¬ relation.physical relation.nextBlock := fun paged =>
      absurd (stack.sound.below _ paged) (lt_irrefl _)
    obtain ⟨pages, rfl, outcome⟩ := appendPendingTupleToNewPage_spec freshTop appended
    cases outcome with
    | inl refused =>
      obtain ⟨rfl, same⟩ := refused
      rw [same]
      exact .of_relation stack grows
    | inr added =>
      obtain ⟨tid, rfl, named, blocks, -, rows⟩ := added
      have newBlocks : RelationOverlay.blocks { top with pendingPages := pages } =
          top.blocks ++ [relation.nextBlock] := blocks
      have either : ∀ block ∈ RelationOverlay.blocks { top with pendingPages := pages },
          block ∈ top.blocks ∨ block = relation.nextBlock := by
        intro block mem
        rw [newBlocks, mem_append, mem_singleton] at mem
        exact mem
      refine Writes.of_top stack grows (LevelSound.claim raised.1 ?_ ?_ rows) rfl ?_ ?_ ?_
      · rw [newBlocks, nodup_append]
        refine ⟨stack.1.distinct, nodup_singleton _, fun a mem b single same => ?_⟩
        exact freshTop (mem_singleton.mp single ▸ same ▸ mem)
      · refine fun block mem => (either block mem).imp_right ?_
        rintro rfl
        refine ⟨unfiled, Nat.lt_succ_self _, fun uncleared outside => ?_⟩
        exact fresh (mem_blocks_cons.mpr (.inr ⟨uncleared, outside⟩))
      · exact fun block mem => (either block mem).imp_right fun new => new.ge
      · intro block mem
        exact newBlocks ▸ mem_append_left _ mem
      · refine fun other mem => (mem_pushUnique.mp mem).imp_right fun new => ?_
        exact row_none_of_not_physical (by rw [new, named]; exact unfiled)
  · cases reservation

theorem AppendStep.writes (step : AppendStep tuple result relation top relation' top')
    (stack : StackSound relation (top :: outer)) :
    Writes ⟨relation, top :: outer⟩ ⟨relation', top' :: outer⟩ := by
  cases step with
  | existing appended => exact appendExisting_writes stack appended
  | target chosen =>
    have checkpoint : (top.relationCheckpoint.or (some relation.checkpoint)) ≠ none := by simp
    have first := @checkpoint_writes _ _ _ _ top.pageCheckpoints stack checkpoint
    exact first.trans (.of_relation first.stack
      (appendTargetBlock_grows chosen stack.sound))
  | page paged checked => exact checkpoint_writes stack checked
  | shared appended => exact insertShared_writes stack appended
  | reserved reservation appended => exact insertReserved_writes stack reservation appended

theorem AppendSteps.writes (steps : AppendSteps tuple result relation top relation' top')
    (stack : StackSound relation (top :: outer)) :
    Writes ⟨relation, top :: outer⟩ ⟨relation', top' :: outer⟩ := by
  induction steps with
  | nil => exact .refl stack
  | cons first _ ih =>
    have step := first.writes stack
    exact step.trans (ih step.stack)
  | last step => exact step.writes stack

theorem AppendSteps.inserted {tid : Tid}
    (steps : AppendSteps tuple (some tid) relation top relation' top') : tid ∈ top'.insertedTids := by
  generalize placed : some tid = result at steps
  induction steps with
  | nil => cases placed
  | cons _ _ ih => exact ih placed
  | last step =>
    subst placed
    cases step <;> exact mem_pushUnique.mpr (.inr rfl)

@[simp] theorem ensureTransaction_relation (here : Local) :
    here.ensureTransaction.relation = here.relation := by
  unfold ensureTransaction
  split <;> rfl

/-- Appending, with the new tid among the rows of the innermost level. -/
theorem appendPendingTuple_writes {here here' : Local}
    (stack : StackSound here.relation here.overlays)
    (h : here.appendPendingTuple catalog tuple = (here', result)) : Writes here here' := by
  have started := Writes.start stack
  obtain ⟨top, top', outer, levels, levels', steps⟩ := appendPendingTuple_steps h
  have same : here.ensureTransaction = ⟨here.relation, top :: outer⟩ := by
    rw [← levels, ← ensureTransaction_relation here]
  rw [same] at started
  obtain ⟨relation', overlays'⟩ := here'
  cases levels'
  exact started.trans (steps.writes started.stack)

theorem appendPendingTuple_inserted {here here' : Local} {tid : Tid}
    (h : here.appendPendingTuple catalog tuple = (here', some tid)) :
    ∃ top outer, here'.overlays = top :: outer ∧ tid ∈ top.insertedTids := by
  obtain ⟨_, top', outer, -, levels', steps⟩ := appendPendingTuple_steps h
  exact ⟨top', outer, levels', steps.inserted⟩

end Local

/-! ## Stamps -/

namespace RelationStorage

variable {relation : RelationStorage}

theorem modifyPage_grows {block : Nat} {f : Page → Page}
    {keeps : ∀ page, (f page).block = page.block} (sound : relation.Sound)
    (same : ∀ page offset, (f page).row offset = page.row offset) :
    Grows relation (relation.modifyPage block f keeps) :=
  .of_rows sound (row_modifyPage_unchanged relation block f keeps same)
    (fun _ => physical_modifyPage) le_rfl rfl rfl

theorem Stamps.grows {relation' : RelationStorage} (stamps : relation.Stamps relation')
    (sound : relation.Sound) : Grows relation relation' := by
  cases stamps with
  | none => exact .refl sound
  | page keeps => exact modifyPage_grows sound keeps.row

end RelationStorage

namespace Local

variable {here here' : Local} {catalog : RelationCatalog}

theorem Stamps.writes (stamps : Stamps here here') (stack : StackSound here.relation here.overlays) :
    Writes here here' := by
  cases stamps with
  | shared stamped => exact .of_relation stack (stamped.grows stack.sound)
  | own keeps stamped =>
    obtain ⟨pages, rfl, sameBlocks, rows⟩ :=
      modifyPendingPage_spec keeps.block keeps.row stamped
    refine Writes.of_top stack (.refl stack.sound) ?_ rfl
      (fun _ mem => .inl (sameBlocks ▸ mem)) (fun _ mem => sameBlocks ▸ mem)
      (fun _ mem => .inl mem)
    exact stack.1.addRow (sameBlocks ▸ stack.1.distinct)
      (fun _ mem => .inl (sameBlocks ▸ mem)) (fun tid entry found => .inr (rows tid ▸ found))
      (fun tid found => rows tid ▸ found) (fun _ mem => .inl mem) rfl stack.1.checkpointed

/-- Every move is a write. -/
theorem Move.writes (move : Move catalog here here')
    (stack : StackSound here.relation here.overlays) : Writes here here' := by
  cases move with
  | start => exact .start stack
  | compress _ levels tid =>
    exact .of_relation stack
      ((resolveTidRedirectCompress_same _ levels tid).grows stack.sound)
  | compressUpdate _ levels tid =>
    exact .of_relation stack
      ((resolveUpdateRedirectCompress_same _ levels tid).grows stack.sound)
  | limit _ maxTuples => exact .of_relation stack (.of_pages stack.sound rfl le_rfl rfl rfl)
  | append _ tuple => exact appendPendingTuple_writes stack (Prod.eta _).symm
  | appendOwn appended => exact appendExisting_writes stack appended
  | stampInsert _ tid xid cid =>
    have first := Writes.of_modifyTop stack fun top : RelationOverlay =>
      (⟨rfl, rfl, rfl, rfl, rfl⟩ : SamePages (top.setInsertCid tid cid) top)
    exact first.trans ((here.setInsertMetadata_stamps tid xid cid).writes first.stack)
  | stampXmax _ tid xmax => exact (here.setRowXmax_stamps tid xmax).writes stack
  | invalidate _ tid reached => exact .of_modifyTop stack fun _ => ⟨rfl, rfl, rfl, rfl, rfl⟩
  | redirect stored own struck =>
    refine .of_samePages stack ?_
    unfold RelationOverlay.insertHotRedirect
    split <;> exact ⟨rfl, rfl, rfl, rfl, rfl⟩
  | note _ f same tidy => exact .of_modifyTop stack fun top => (same top).pages

theorem Moves.writes (moves : Moves catalog here here')
    (stack : StackSound here.relation here.overlays) :
    Writes here here' := by
  induction moves with
  | refl => exact .refl stack
  | tail _ last ih => exact ih.trans (last.writes ih.stack)

end Local

end FastPg.Storage
