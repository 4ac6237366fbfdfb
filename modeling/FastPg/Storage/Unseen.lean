import FastPg.Storage.Abort

/-! # What other sessions cannot see

A session reads committed rows, its own rows, redirects and key entries. A
change of the shared relation is unseen by a session if live rows, the
session's own rows and the committed keys stay, and if redirects at most take
shortcuts. Every move of another session is such a change, and so is a rollback
of levels that cleared nothing.
-/

namespace FastPg.Storage

open Assoc Redirect Transition Option RelationStorage RelationOverlay Overlays
open List hiding insert lookup

/-! ## Changes that are not seen -/

/-- A change of the relation, as far as a session with the given levels reads it. -/
structure Unseen (levels : Overlays) (before after : RelationStorage) : Prop where
  sound : after.Sound
  live : SameLive after before
  own : ∀ tid ∈ Overlays.inserted levels, (before.row tid).isSome → after.row tid = before.row tid
  redirects : Shortcuts (lookup before.hotRedirects) (lookup after.hotRedirects)
  updates : Shortcuts (lookup before.updateRedirects) (lookup after.updateRedirects)
  keys : after.primaryKeyIndex = before.primaryKeyIndex
  indexes : after.indexes = before.indexes

namespace Unseen

variable {levels : Overlays} {a b c : RelationStorage}

theorem refl (sound : a.Sound) : Unseen levels a a :=
  ⟨sound, .refl, fun _ _ _ => rfl, .refl, .refl, rfl, rfl⟩

theorem trans (first : Unseen levels a b) (second : Unseen levels b c) : Unseen levels a c where
  sound := second.sound
  live := second.live.trans first.live
  own := by
    intro tid mine stored
    have same := first.own tid mine stored
    rw [second.own tid mine (same ▸ stored), same]
  redirects := first.redirects.trans second.redirects
  updates := first.updates.trans second.updates
  keys := second.keys.trans first.keys
  indexes := second.indexes.trans first.indexes

end Unseen

/-! ## Moves of other sessions -/

/-- Rows are added at most, and redirects and entries stay as they are. -/
structure Adds (before after : RelationStorage) : Prop where
  rows : ∀ tid, (before.row tid).isSome → after.row tid = before.row tid
  redirects : after.hotRedirects = before.hotRedirects
  updates : after.updateRedirects = before.updateRedirects
  keys : after.primaryKeyIndex = before.primaryKeyIndex
  indexes : after.indexes = before.indexes

namespace Adds

variable {relation : RelationStorage} {relation' : RelationStorage}

theorem refl : Adds relation relation :=
  ⟨fun _ _ => rfl, rfl, rfl, rfl, rfl⟩

theorem trans {a b c : RelationStorage} (first : Adds a b) (second : Adds b c) : Adds a c where
  rows := by
    intro tid stored
    have same := first.rows tid stored
    rw [second.rows tid (same ▸ stored), same]
  redirects := second.redirects.trans first.redirects
  updates := second.updates.trans first.updates
  keys := second.keys.trans first.keys
  indexes := second.indexes.trans first.indexes

theorem unseen {levels : Overlays} {before after : RelationStorage} (adds : Adds before after)
    (grows : Grows before after) : Unseen levels before after where
  sound := grows.sound
  live := grows.live
  own := fun tid _ => adds.rows tid
  redirects := adds.redirects ▸ .refl
  updates := adds.updates ▸ .refl
  keys := adds.keys
  indexes := adds.indexes

theorem reserveBlock {reserved : RelationStorage} {block : Nat}
    (h : relation.reserveBlock = some (reserved, block)) : Adds relation reserved := by
  unfold RelationStorage.reserveBlock at h
  split at h
  · cases h
    exact ⟨fun _ _ => rfl, rfl, rfl, rfl, rfl⟩
  · cases h

theorem appendTargetBlock {tupleLen : Nat} {result : Option Nat} (sound : relation.Sound)
    (h : relation.appendTargetBlock tupleLen = (relation', result)) : Adds relation relation' := by
  have rows := (appendTargetBlock_spec h sound).2.1
  unfold RelationStorage.appendTargetBlock at h
  split at h
  · cases h
    exact .refl
  · split at h
    · cases h
      exact ⟨fun tid _ => rows tid, rfl, rfl, rfl, rfl⟩
    · cases reservation : relation.reserveBlock with
      | none =>
        rw [reservation] at h
        cases h
        exact .refl
      | some entry =>
        obtain ⟨reserved, block⟩ := entry
        rw [reservation] at h
        cases h
        have first := reserveBlock reservation
        exact ⟨fun tid _ => rows tid, first.redirects, first.updates, first.keys, first.indexes⟩

theorem appendPendingTuple {block : Nat} {tuple : Bytes} {result : Option Tid}
    (h : relation.appendPendingTuple block tuple = (relation', result)) :
    Adds relation relation' := by
  obtain ⟨maps, _, _, rows⟩ := appendPendingTuple_spec h
  refine ⟨fun tid stored => ?_, maps.hotRedirects, maps.updateRedirects, maps.primaryKeyIndex,
    maps.indexes⟩
  rcases rows with ⟨_, same⟩ | ⟨new, _, _, _, absent, rows⟩
  · exact same tid
  · rw [rows, if_neg]
    rintro rfl
    simp [absent] at stored

theorem modifyPage {block : Nat} {f : Page → Page}
    (keeps : ∀ page, (f page).block = page.block)
    (same : ∀ page offset, (f page).row offset = page.row offset) :
    Adds relation (relation.modifyPage block f keeps) :=
  ⟨fun tid _ => row_modifyPage_unchanged relation block f keeps same tid, rfl, rfl,
    rfl, rfl⟩

end Adds

namespace Local

theorem AppendStep.adds {tuple : Bytes} {result : Option Tid} {relation relation' : RelationStorage}
    {top top' : RelationOverlay} (step : AppendStep tuple result relation top relation' top')
    (sound : relation.Sound) : Adds relation relation' := by
  cases step with
  | existing | page => exact .refl
  | target chosen => exact .appendTargetBlock sound chosen
  | shared appended => exact .appendPendingTuple appended
  | reserved reservation =>
    have first := Adds.reserveBlock reservation
    exact ⟨first.rows, first.redirects, first.updates, first.keys, first.indexes⟩

theorem AppendSteps.adds {tuple : Bytes} {result : Option Tid} {relation relation' : RelationStorage}
    {top top' : RelationOverlay} {outer : Overlays}
    (steps : AppendSteps tuple result relation top relation' top')
    (stack : StackSound relation (top :: outer)) : Adds relation relation' := by
  induction steps with
  | nil => exact .refl
  | cons first _ ih => exact (first.adds stack.sound).trans (ih (first.writes stack).stack)
  | last step => exact step.adds stack.sound

theorem appendPendingTuple_adds (catalog : RelationCatalog) {here : Local}
    (stack : StackSound here.relation here.overlays) (tuple : Bytes) :
    Adds here.relation (here.appendPendingTuple catalog tuple).1.relation := by
  have started := (Writes.start stack).stack
  obtain ⟨top, top', outer, levels, -, steps⟩ :=
    appendPendingTuple_steps (Prod.eta (here.appendPendingTuple catalog tuple)).symm
  rw [ensureTransaction_relation, levels] at started
  exact steps.adds started

theorem Stamps.adds {here here' : Local} (stamps : Stamps here here') :
    Adds here.relation here'.relation := by
  cases stamps with
  | own => exact .refl
  | shared stamped =>
    cases stamped with
    | none => exact .refl
    | page keeps => exact @Adds.modifyPage _ _ _ keeps.block keeps.row

@[simp] theorem modifyTop_relation (here : Local) (f : RelationOverlay → RelationOverlay) :
    (here.modifyTop f).relation = here.relation := by
  unfold modifyTop
  split <;> rfl

end Local

namespace RelationStorage

/-- Compression takes shortcuts over committed redirects, and passes over none
    of the levels that were followed. -/
theorem resolveTidRedirectCompress_hops (relation : RelationStorage) (levels : Overlays)
    (tid : Tid) {v target : Tid}
    (hop : Hop (lookup (relation.resolveTidRedirectCompress levels tid).1.hotRedirects) v target) :
    Hop (lookup relation.hotRedirects) v target ∨
      Relation.TransGen (fun x y => tidRedirect levels x = none ∧
        Hop (lookup relation.hotRedirects) x y) v target := by
  unfold resolveTidRedirectCompress at hop
  dsimp only at hop
  split at hop
  next unused =>
    have unused' := by simpa using unused.1
    have paths := walk_paths (by simp) unused'
    rw [Hop, foldl_insertHotRedirect_lookup] at hop
    split at hop
    next visited =>
      cases hop
      exact .inr (paths v (mem_filter.mp visited).1)
    next => exact .inl hop
  next => exact .inl hop

theorem resolveTidRedirectCompress_last (relation : RelationStorage) (levels : Overlays)
    (tid : Tid) {v : Tid}
    (ended : lookup (relation.resolveTidRedirectCompress levels tid).1.hotRedirects v = none) :
    lookup relation.hotRedirects v = none := by
  unfold resolveTidRedirectCompress at ended
  dsimp only at ended
  split at ended
  · rw [foldl_insertHotRedirect_lookup] at ended
    split at ended
    · cases ended
    · exact ended
  · exact ended

theorem resolveTidRedirectCompress_shortcuts (relation : RelationStorage) (levels : Overlays)
    (tid : Tid) : Shortcuts (lookup relation.hotRedirects)
      (lookup (relation.resolveTidRedirectCompress levels tid).1.hotRedirects) where
  path := by
    intro v target hop
    rcases relation.resolveTidRedirectCompress_hops levels tid hop with same | path
    · exact .single same
    · exact path.lift id fun _ _ step => step.2
  last := relation.resolveTidRedirectCompress_last levels tid

/-- A session that has no redirect where the followed levels have none takes
    shortcuts too. -/
theorem resolveTidRedirectCompress_hotNext (relation : RelationStorage) {used levels : Overlays}
    (covered : ∀ tid, tidRedirect used tid = none → tidRedirect levels tid = none)
    (tid : Tid) : Shortcuts (relation.hotNext levels)
      ((relation.resolveTidRedirectCompress used tid).1.hotNext levels) where
  path := by
    intro v target hop
    simp only [Hop, hotNext, orElse] at hop
    cases own : tidRedirect levels v with
    | some next =>
      refine .single ?_
      simpa [Hop, hotNext, orElse, own] using hop
    | none =>
      rw [own, none_or] at hop
      rcases relation.resolveTidRedirectCompress_hops used tid hop with same | path
      · refine .single ?_
        simpa [Hop, hotNext, orElse, own] using same
      · refine path.lift id fun x y step => ?_
        have free := covered x step.1
        have left : lookup relation.hotRedirects x = some y := step.2
        simp [Hop, hotNext, orElse, free, left]
  last := by
    intro v ended
    simp only [hotNext, orElse, or_eq_none_iff] at ended ⊢
    exact ⟨ended.1, relation.resolveTidRedirectCompress_last used tid ended.2⟩

theorem resolveTidRedirectCompress_entries (relation : RelationStorage) (levels : Overlays)
    (tid : Tid) :
    let compressed := (relation.resolveTidRedirectCompress levels tid).1
    compressed.updateRedirects = relation.updateRedirects ∧
      compressed.primaryKeyIndex = relation.primaryKeyIndex ∧
      compressed.indexes = relation.indexes := by
  have folded : ∀ (tids : List Tid) (target : Tid) (relation : RelationStorage),
      let compressed := tids.foldl (fun relation tid => relation.insertHotRedirect tid target) relation
      compressed.updateRedirects = relation.updateRedirects ∧
        compressed.primaryKeyIndex = relation.primaryKeyIndex ∧
        compressed.indexes = relation.indexes := by
    intro tids target
    induction tids with
    | nil => exact fun _ => ⟨rfl, rfl, rfl⟩
    | cons tid rest ih => exact fun relation => ih _
  unfold resolveTidRedirectCompress
  dsimp only
  split
  · exact folded ..
  · exact ⟨rfl, rfl, rfl⟩

theorem resolveTidRedirectCompress_unseen {relation : RelationStorage} (sound : relation.Sound)
    (levels others : Overlays) (tid : Tid) :
    Unseen others relation (relation.resolveTidRedirectCompress levels tid).1 := by
  have same := relation.resolveTidRedirectCompress_same levels tid
  obtain ⟨updates, keys, indexes⟩ := relation.resolveTidRedirectCompress_entries levels tid
  exact ⟨(same.grows sound).sound, (same.grows sound).live, fun tid _ _ => congrFun same.row tid,
    relation.resolveTidRedirectCompress_shortcuts levels tid, updates ▸ .refl, keys, indexes⟩

theorem foldl_upsert_lookup {κ : Type*} [DecidableEq κ] (keys : List κ) (target : κ)
    (entries : List (κ × κ)) (key : κ) :
    lookup (keys.foldl (fun entries key => upsert entries key target) entries) key =
      if key ∈ keys then some target else lookup entries key := by
  induction keys generalizing entries with
  | nil => simp
  | cons first rest ih =>
    rw [foldl_cons, ih, lookup_upsert]
    grind

/-- The compression of update redirects takes shortcuts as well. -/
theorem resolveUpdateRedirectCompress_shortcuts (relation : RelationStorage) (levels : Overlays)
    (tid : Tid) : Shortcuts (lookup relation.updateRedirects)
      (lookup (relation.resolveUpdateRedirectCompress levels tid).1.updateRedirects) := by
  unfold resolveUpdateRedirectCompress
  dsimp only
  split
  next unused =>
    have unused' := by simpa using unused.1
    have paths := walk_paths (by simp) unused'
    constructor
    · intro v target hop
      rw [Hop, foldl_upsert_lookup] at hop
      split at hop
      next visited =>
        cases hop
        exact (paths v (mem_filter.mp visited).1).lift id fun _ _ step => step.2
      next => exact .single hop
    · intro v ended
      rw [foldl_upsert_lookup] at ended
      split at ended
      · cases ended
      · exact ended
  next => exact .refl

theorem resolveUpdateRedirectCompress_unseen {relation : RelationStorage} (sound : relation.Sound)
    (levels others : Overlays) (tid : Tid) :
    Unseen others relation (relation.resolveUpdateRedirectCompress levels tid).1 := by
  have same := relation.resolveUpdateRedirectCompress_same levels tid
  refine ⟨(same.grows sound).sound, (same.grows sound).live, fun tid _ _ => congrFun same.row tid,
    by rw [resolveUpdateRedirectCompress_hotRedirects]; exact .refl,
    relation.resolveUpdateRedirectCompress_shortcuts levels tid, ?_, ?_⟩
  all_goals
    unfold resolveUpdateRedirectCompress
    dsimp only
    split <;> rfl

end RelationStorage

variable {catalog : RelationCatalog} {tid : Tid}

/-- No move of a session is seen by the others. -/
theorem Local.Move.unseen {here here' : Local} (move : Local.Move catalog here here')
    (stack : StackSound here.relation here.overlays) (levels : Overlays) :
    Unseen levels here.relation here'.relation := by
  have grows := (move.writes stack).grows
  cases move with
  | start => exact Adds.unseen (by rw [ensureTransaction_relation]; exact .refl) grows
  | compress _ used tid =>
    exact resolveTidRedirectCompress_unseen stack.sound used levels tid
  | compressUpdate _ used tid =>
    exact resolveUpdateRedirectCompress_unseen stack.sound used levels tid
  | limit _ maxTuples => exact Adds.unseen ⟨fun _ _ => rfl, rfl, rfl, rfl, rfl⟩ grows
  | append _ tuple => exact (appendPendingTuple_adds catalog stack tuple).unseen grows
  | appendOwn => exact .refl stack.sound
  | stampInsert _ tid xid cid =>
    have adds := (here.setInsertMetadata_stamps tid xid cid).adds
    rw [modifyTop_relation] at adds
    exact adds.unseen grows
  | stampXmax _ tid xmax => exact (here.setRowXmax_stamps tid xmax).adds.unseen grows
  | invalidate | note =>
    rw [modifyTop_relation]
    exact .refl stack.sound
  | redirect => exact .refl stack.sound

theorem Local.Moves.unseen {here here' : Local} (moves : Local.Moves catalog here here')
    (stack : StackSound here.relation here.overlays) (levels : Overlays) :
    Unseen levels here.relation here'.relation := by
  induction moves with
  | refl => exact .refl stack.sound
  | tail before last ih =>
    exact ih.trans (last.unseen (Local.Moves.writes before stack).stack levels)

/-! ## Rollbacks of other sessions -/

theorem Local.rollbackOverlay_entries {relation : RelationStorage} {overlay : RelationOverlay}
    (uncleared : overlay.cleared = false) :
    let undone := Local.rollbackOverlay relation overlay
    undone.hotRedirects = relation.hotRedirects ∧ undone.updateRedirects = relation.updateRedirects ∧
      undone.primaryKeyIndex = relation.primaryKeyIndex ∧ undone.indexes = relation.indexes := by
  have maps := markDead_rowStep.foldl_maps overlay.insertedTids relation
  unfold Local.rollbackOverlay
  rw [clearedRelation_of_not_cleared uncleared]
  dsimp only [getD_none]
  cases overlay.relationCheckpoint with
  | none => exact ⟨maps.hotRedirects, maps.updateRedirects, maps.primaryKeyIndex, maps.indexes⟩
  | some checkpoint =>
    dsimp only [restoreRollbackMetadataPreservingTidSpace]
    split <;> exact ⟨maps.hotRedirects, maps.updateRedirects, maps.primaryKeyIndex, maps.indexes⟩

variable {relation : RelationStorage} {levels overlays : Overlays}

/-- A rolled back level without a clear is not seen by a session that has none
    of its rows. -/
theorem Local.rollbackOverlay_unseen {top : RelationOverlay}
    {outer : Overlays} (stack : StackSound relation (top :: outer))
    (uncleared : top.cleared = false)
    (apart : ∀ tid ∈ top.insertedTids, tid ∉ inserted levels) :
    Unseen levels relation (Local.rollbackOverlay relation top) := by
  obtain ⟨kills, kept⟩ := Local.rollbackOverlay_spec stack.sound uncleared
  obtain ⟨redirects, updates, keys, indexes⟩ := @Local.rollbackOverlay_entries relation top uncleared
  refine ⟨kills.sound, fun tid bytes => ?_, fun tid mine _ => kept tid fun own => apart tid own mine,
    redirects ▸ .refl, updates ▸ .refl, keys, indexes⟩
  rw [Local.rollbackOverlay_live stack, clearedRelation_of_not_cleared uncleared]
  rfl

theorem Local.rollbackAll_unseen
    (stack : StackSound relation overlays) (uncleared : Uncleared overlays)
    (apart : ∀ tid ∈ inserted overlays, tid ∉ inserted levels) :
    Unseen levels relation (Local.rollbackAll relation overlays) := by
  induction overlays generalizing relation with
  | nil => exact .refl stack.sound
  | cons top outer ih =>
    have first : Unseen levels relation (Local.rollbackOverlay relation top) :=
      Local.rollbackOverlay_unseen stack uncleared.head fun tid own =>
        apart tid (mem_inserted_cons.mpr (.inl own))
    refine first.trans (ih (Local.rollbackOverlay_stack stack) uncleared.tail fun tid own => ?_)
    exact apart tid (mem_inserted_cons.mpr (.inr ⟨uncleared.head, own⟩))

/-! ## Reading after a change that is not seen -/

/-- An own row is in an own page or in the relation. -/
theorem StackSound.readable (stack : StackSound relation overlays)
    (mine : tid ∈ inserted overlays) :
    (pendingTupleSlice overlays tid).isSome ∨ (relation.row tid).isSome := by
  induction overlays generalizing relation with
  | nil => simp [inserted, Overlays.segment] at mine
  | cons overlay outer ih =>
    rw [Overlays.pendingTupleSlice]
    rcases mem_inserted_cons.mp mine with own | ⟨uncleared, below⟩
    · rcases stack.1.placed tid own with paged | ⟨stored, _⟩
      · obtain ⟨entry, found⟩ := isSome_iff_exists.mp paged
        have pending := stack.1.pending tid entry found
        left
        simp [pendingTupleSlice_eq, found, pending, Page.readable]
      · exact .inr stored
    · cases overlay.pendingTupleSlice tid with
      | some tuple => exact .inl rfl
      | none => simpa [uncleared] using ih (stack.outer uncleared) below

theorem Overlays.ownInsertedTid_iff :
    ownInsertedTid overlays tid = true ↔ tid ∈ inserted overlays := by
  induction overlays with
  | nil => simp [ownInsertedTid, inserted, Overlays.segment]
  | cons overlay outer ih =>
    rw [mem_inserted_cons, ownInsertedTid, ← ih]
    by_cases own : tid ∈ overlay.insertedTids
    · simp [own]
    · cases overlay.cleared <;> simp [own]

/-- A tid that no level since the last clear inserted, and no clear hides. -/
theorem Overlays.insertedCid_none (foreign : Overlays.ownInsertedTid overlays tid = false)
    (shown : Overlays.clearTid overlays tid = false) :
    Overlays.insertedCid overlays tid = none := by
  induction overlays with
  | nil => rfl
  | cons overlay outer ih =>
    unfold Overlays.ownInsertedTid at foreign
    unfold Overlays.clearTid at shown
    by_cases own : tid ∈ overlay.insertedTids
    · simp [own] at foreign
    · cases cleared : overlay.cleared with
      | true => simp [own, cleared] at shown
      | false =>
        simp only [own, cleared, if_false, Bool.false_eq_true] at foreign shown
        have below := ih foreign shown
        simp only [Overlays.insertedCid, findSome?_cons, RelationOverlay.insertedCid, own,
          if_false] at below ⊢
        exact below

/-- Pending rows count only where the session inserted the row. -/
theorem Overlays.tidVisibility_pending {curcid : Option Nat}
    (visible : overlays.tidVisibility tid curcid = some true) : tid ∈ inserted overlays := by
  rw [← ownInsertedTid_iff]
  by_contra foreign
  rw [Bool.not_eq_true] at foreign
  unfold tidVisibility at visible
  cases curcid with
  | none => simp [foreign] at visible
  | some curcid =>
    cases cleared : overlays.clearTid tid with
    | true => simp [cleared] at visible
    | false =>
      simp [foreign, ownInsertedTidBefore, insertedCid_none foreign cleared]
        at visible

namespace Unseen

variable {levels : Overlays} {before after : RelationStorage} (unseen : Unseen levels before after)
  (stack : StackSound before levels)
include unseen

theorem tupleSlice (tid : Tid) : after.tupleSlice tid false = before.tupleSlice tid false := by
  apply ext
  intro bytes
  rw [tupleSlice_live, tupleSlice_live, unseen.live]

theorem liveTids (sound : before.Sound) : after.liveTids = before.liveTids := by
  apply OrdSet.ext
  intro tid
  rw [unseen.sound.live, sound.live]
  exact exists_congr fun bytes => unseen.live tid bytes

include stack

/-- An own row is read as before, in an own page or in the relation. -/
theorem own_slice (mine : tid ∈ inserted levels) :
    (pendingTupleSlice levels tid).isSome ∨
      ∀ pending, after.tupleSlice tid pending = before.tupleSlice tid pending := by
  rcases stack.readable mine with own | stored
  · exact .inl own
  · right
    intro pending
    simp only [tupleSlice_eq, unseen.own tid mine stored]

theorem stackTupleSlice (tid : Tid) (curcid : Option Nat) :
    after.stackTupleSlice levels tid curcid = before.stackTupleSlice levels tid curcid := by
  unfold RelationStorage.stackTupleSlice
  cases visible : levels.tidVisibility tid curcid with
  | none => rfl
  | some pending =>
    cases pending with
    | false => simpa using unseen.tupleSlice tid
    | true =>
      rcases unseen.own_slice stack (tidVisibility_pending visible) with paged | same
      · obtain ⟨tuple, found⟩ := isSome_iff_exists.mp paged
        simp [found]
      · simp [same true]

theorem physicalVisibleTupleSlice (tid : Tid) :
    after.physicalVisibleTupleSlice levels tid = before.physicalVisibleTupleSlice levels tid := by
  rw [physicalVisibleTupleSlice_stack, unseen.stackTupleSlice stack,
    physicalVisibleTupleSlice_stack]

theorem visibleTids : after.visibleTids levels = before.visibleTids levels := by
  unfold RelationStorage.visibleTids
  simp only [unseen.liveTids stack.sound, unseen.physicalVisibleTupleSlice stack]

theorem physicalVisibleTupleSliceAtCid (tid : Tid) (curcid : Nat) :
    after.physicalVisibleTupleSliceAtCid levels tid curcid =
      before.physicalVisibleTupleSliceAtCid levels tid curcid := by
  rw [physicalVisibleTupleSliceAtCid_stack, unseen.stackTupleSlice stack,
    physicalVisibleTupleSliceAtCid_stack]

end Unseen

/-! ## Redirects and keys -/

/-- What a session asks of redirects: it redirects no tid that a committed
    redirect leaves, its chains stay below the hop limit, and a tid that a
    committed redirect leaves is not visible itself. -/
structure Settled (relation : RelationStorage) (levels : Overlays) : Prop where
  apart : ∀ tid, (Overlays.tidRedirect levels tid).isSome → lookup relation.hotRedirects tid = none
  ends : ∀ tid, ∃ target, Ends (relation.hotNext levels) (maxHotRedirectHops - 1) tid target
  retired : ∀ tid, (lookup relation.hotRedirects tid).isSome → ∀ curcid,
    relation.physicalVisibleTupleSliceAtCid levels tid curcid = none

theorem hops_pred : maxHotRedirectHops - 1 + 1 = maxHotRedirectHops := rfl

theorem RelationStorage.hotNext_nil (relation : RelationStorage) :
    relation.hotNext [] = lookup relation.hotRedirects := by
  funext tid
  simp [hotNext, orElse, tidRedirect]

/-- The chain of a tid ends where it is resolved to. -/
theorem Settled.resolves (settled : Settled relation levels) (tid : Tid) :
    Ends (relation.hotNext levels) maxHotRedirectHops tid (relation.resolveTidRedirect levels tid) := by
  obtain ⟨target, ends⟩ := settled.ends tid
  have within := ends.mono (Nat.le_of_lt_succ (Nat.lt_succ_of_le (Nat.sub_le maxHotRedirectHops 1)))
  have same : relation.resolveTidRedirect levels tid = target := within.follow_eq
  exact same ▸ within

namespace Unseen

variable {levels : Overlays} {before after : RelationStorage} (unseen : Unseen levels before after)
  (stack : StackSound before levels) (links : Settled before levels)
include unseen links

theorem hotNext : Shortcuts (before.hotNext levels) (after.hotNext levels) :=
  unseen.redirects.orElse links.apart

theorem resolveTidRedirect
    (tid : Tid) : after.resolveTidRedirect levels tid = before.resolveTidRedirect levels tid :=
  ((unseen.hotNext links).ends (links.resolves tid)).follow_eq

/-- A session without changes follows committed redirects only. -/
theorem resolve_committed
    (tid : Tid) : after.resolveTidRedirect [] tid = before.resolveTidRedirect [] tid := by
  obtain ⟨target, ends⟩ := Ends.lower links.apart (links.resolves tid)
  simp only [RelationStorage.resolveTidRedirect, RelationStorage.hotNext_nil]
  rw [(unseen.redirects.ends ends).follow_eq, ends.follow_eq]

theorem committedEntry (key : IndexKey) : after.committedEntry key = before.committedEntry key := by
  simp only [RelationStorage.committedEntry, unseen.keys, unseen.resolve_committed links,
    unseen.tupleSlice]

include stack

theorem settled : Settled after levels where
  apart := fun tid own => unseen.redirects.none_iff.mpr (links.apart tid own)
  ends := fun tid => (links.ends tid).imp fun _ ends => (unseen.hotNext links).ends ends
  retired := by
    intro tid left curcid
    rw [unseen.physicalVisibleTupleSliceAtCid stack]
    refine links.retired tid ?_ curcid
    rw [← ne_none_iff_isSome] at left ⊢
    exact fun last => left (unseen.redirects.none_iff.mpr last)

theorem visibleTupleSlice (tid : Tid) :
    after.visibleTupleSlice levels tid = before.visibleTupleSlice levels tid := by
  unfold RelationStorage.visibleTupleSlice
  rw [unseen.resolveTidRedirect links, unseen.physicalVisibleTupleSlice stack]

theorem visibleTupleSliceAtCid (tid : Tid) (curcid : Nat) :
    after.visibleTupleSliceAtCid levels tid curcid =
      before.visibleTupleSliceAtCid levels tid curcid := by
  obtain ⟨target, ends⟩ := links.ends tid
  unfold RelationStorage.visibleTupleSliceAtCid
  simp only [unseen.physicalVisibleTupleSliceAtCid stack]
  have found := unseen.redirects.seek links.apart
    (fun tid left => links.retired tid left curcid) ends le_rfl
  rw [hops_pred] at found
  exact found

theorem visibleEntry (tid : Tid) :
    after.visibleEntry levels tid = before.visibleEntry levels tid := by
  unfold RelationStorage.visibleEntry
  simp only [unseen.resolveTidRedirect links, unseen.physicalVisibleTupleSlice stack]

theorem primaryKeyLookupFrom (key : IndexKey) (rest : Overlays) :
    after.primaryKeyLookupFrom levels key rest = before.primaryKeyLookupFrom levels key rest := by
  have entry : after.visibleEntry levels = before.visibleEntry levels :=
    funext (unseen.visibleEntry stack links)
  induction rest with
  | nil => simp only [RelationStorage.primaryKeyLookupFrom, unseen.keys, entry]
  | cons overlay outer ih => simp only [RelationStorage.primaryKeyLookupFrom, entry, ih]

theorem primaryKeyLookupRead (key : IndexKey) :
    after.primaryKeyLookupRead levels key = before.primaryKeyLookupRead levels key := by
  unfold RelationStorage.primaryKeyLookupRead
  rw [unseen.primaryKeyLookupFrom stack links, unseen.committedEntry links]

end Unseen

/-! ## Compression changes nothing for the session itself -/

variable {a b : RelationStorage}

theorem SameRelation.tupleSlice (same : SameRelation a b) :
    a.tupleSlice = b.tupleSlice := by
  funext tid pending
  rw [tupleSlice_eq, tupleSlice_eq, same.row]

theorem SameRelation.physicalVisibleTupleSlice (same : SameRelation a b) :
    a.physicalVisibleTupleSlice = b.physicalVisibleTupleSlice := by
  have read : a.readOverlay = b.readOverlay := by
    funext overlay tid pending
    simp only [readOverlay, same.tupleSlice]
  funext levels tid
  simp only [RelationStorage.physicalVisibleTupleSlice, read, same.tupleSlice]

/-- Every chain of redirects ends below the hop limit. -/
def Ended (relation : RelationStorage) (levels : Overlays) : Prop :=
  ∀ tid, ∃ target, Ends (relation.hotNext levels) maxHotRedirectHops tid target

theorem Settled.ended (settled : Settled relation levels) : Ended relation levels :=
  fun tid => ⟨_, settled.resolves tid⟩

namespace Ended

variable {relation : RelationStorage} {levels : Overlays}

theorem resolves (ended : Ended relation levels) (tid : Tid) :
    Ends (relation.hotNext levels) maxHotRedirectHops tid (relation.resolveTidRedirect levels tid) := by
  obtain ⟨target, ends⟩ := ended tid
  have same : relation.resolveTidRedirect levels tid = target := ends.follow_eq
  exact same ▸ ends

theorem shortcuts (ended : Ended relation levels) {after : RelationStorage}
    (shortcuts : Shortcuts (relation.hotNext levels) (after.hotNext levels)) : Ended after levels :=
  fun tid => ⟨_, shortcuts.ends (ended.resolves tid)⟩

theorem compressed (ended : Ended relation levels) (tid : Tid) :
    Ended (relation.resolveTidRedirectCompress levels tid).1 levels :=
  ended.shortcuts (relation.resolveTidRedirectCompress_hotNext (fun _ => id) tid)

theorem resolve_compressed (ended : Ended relation levels) (tid other : Tid) :
    (relation.resolveTidRedirectCompress levels tid).1.resolveTidRedirect levels other =
      relation.resolveTidRedirect levels other :=
  ((relation.resolveTidRedirectCompress_hotNext (fun _ => id) tid).ends
    (ended.resolves other)).follow_eq

/-- Fetching resolves a tid once, whatever is compressed on the way. -/
theorem fetchTid (ended : Ended relation levels) (tid : Tid) :
    (relation.fetchTid levels tid).2 = relation.visibleTupleSlice levels tid := by
  have again : relation.resolveTidRedirect levels (relation.resolveTidRedirect levels tid) =
      relation.resolveTidRedirect levels tid := (Ends.stop (ended.resolves tid).last).follow_eq
  change (relation.resolveTidRedirectCompress levels tid).1.visibleTupleSlice levels
    (relation.resolveTidRedirectCompress levels tid).2 = _
  unfold visibleTupleSlice
  rw [ended.resolve_compressed, resolveTidRedirectCompress_final, again,
    (relation.resolveTidRedirectCompress_same levels tid).physicalVisibleTupleSlice]

theorem visibleEntryCompress (relation : RelationStorage) (levels : Overlays) (tid : Tid) :
    (relation.visibleEntryCompress levels tid).2 = relation.visibleEntry levels tid := by
  have same := relation.resolveTidRedirectCompress_same levels tid
  simp only [RelationStorage.visibleEntryCompress, RelationStorage.visibleEntry,
    same.physicalVisibleTupleSlice, RelationStorage.resolveTidRedirectCompress_final]

theorem visibleEntry (ended : Ended relation levels) (tid : Tid) :
    (relation.resolveTidRedirectCompress levels tid).1.visibleEntry levels =
      relation.visibleEntry levels := by
  have same := relation.resolveTidRedirectCompress_same levels tid
  funext other
  simp only [RelationStorage.visibleEntry, ended.resolve_compressed, same.physicalVisibleTupleSlice]

theorem primaryKeyLookupFrom (ended : Ended relation levels) (tid : Tid) (key : IndexKey)
    (rest : Overlays) :
    (relation.resolveTidRedirectCompress levels tid).1.primaryKeyLookupFrom levels key rest =
      relation.primaryKeyLookupFrom levels key rest := by
  induction rest with
  | nil =>
    simp only [RelationStorage.primaryKeyLookupFrom, ended.visibleEntry,
      (relation.resolveTidRedirectCompress_entries levels tid).2.1]
  | cons overlay outer ih =>
    simp only [RelationStorage.primaryKeyLookupFrom, ended.visibleEntry, ih]

theorem primaryKeyLookupCompressFrom (key : IndexKey) (rest : Overlays)
    (ended : Ended relation levels) :
    (RelationStorage.primaryKeyLookupCompressFrom levels key rest relation).2 =
      relation.primaryKeyLookupFrom levels key rest := by
  induction rest generalizing relation with
  | nil =>
    simp only [RelationStorage.primaryKeyLookupCompressFrom, RelationStorage.primaryKeyLookupFrom]
    cases lookup relation.primaryKeyIndex key with
    | none => rfl
    | some tid => exact visibleEntryCompress relation levels tid
  | cons overlay outer ih =>
    simp only [RelationStorage.primaryKeyLookupCompressFrom, RelationStorage.primaryKeyLookupFrom]
    cases lookup overlay.primaryKeyInserts key with
    | none =>
      dsimp only [bind_none]
      split
      · rfl
      · exact ih ended
    | some tid =>
      have hit := visibleEntryCompress relation levels tid
      simp only [bind_some, ← hit]
      cases (relation.visibleEntryCompress levels tid).2 with
      | some row => rfl
      | none =>
        dsimp only
        split
        · rfl
        · have after := ih (ended.compressed tid)
          rw [ended.primaryKeyLookupFrom] at after
          exact after

theorem committedEntryCompress (relation : RelationStorage) (key : IndexKey) :
    (relation.committedEntryCompress key).2 = relation.committedEntry key := by
  unfold RelationStorage.committedEntryCompress RelationStorage.committedEntry
  cases lookup relation.primaryKeyIndex key with
  | none => rfl
  | some tid =>
    have same := relation.resolveTidRedirectCompress_same [] tid
    simp only [same.tupleSlice, resolveTidRedirectCompress_final]
    rfl

/-- The lookup under the write lock finds what the plain one finds. -/
theorem primaryKeyLookup (ended : Ended relation levels) (key : IndexKey) :
    (relation.primaryKeyLookup levels key).2 = relation.primaryKeyLookupRead levels key := by
  unfold RelationStorage.primaryKeyLookup RelationStorage.primaryKeyLookupRead
  split
  · exact primaryKeyLookupCompressFrom key levels ended
  · exact committedEntryCompress relation key

end Ended

end FastPg.Storage
