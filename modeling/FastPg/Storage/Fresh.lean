import FastPg.Storage.Engine

/-! # Tids are handed out once

A tid is unused while nothing was ever stored at it: its block is past the
frontier, or is a page of the relation or of some session that does not reach
as far. As long as a relation is not cleared, no request makes a tid unused
again, and the tids that inserts and updates return and that commits assign
were unused until then.
-/

namespace FastPg.Storage

open Assoc Transition Option RelationOverlay
open List hiding insert lookup

/-! ## Rows of own pages -/

namespace Overlays

/-- Some level keeps a row of its own at the tid. -/
def Held (overlays : Overlays) (tid : Tid) : Prop :=
  ∃ overlay ∈ overlays, (overlay.pendingRow tid).isSome

variable {top top' : RelationOverlay} {outer : Overlays} {tid : Tid} {overlays : Overlays}

theorem held_cons : Held (top :: outer) tid ↔ (top.pendingRow tid).isSome ∨ Held outer tid := by
  simp [Held]

theorem Held.innermost (held : Held (top :: outer) tid)
    (kept : (top.pendingRow tid).isSome → (top'.pendingRow tid).isSome) :
    Held (top' :: outer) tid :=
  held_cons.mpr ((held_cons.mp held).imp_left kept)

theorem holdsClear_cons : holdsClear (top :: outer) = false ↔
    top.cleared = false ∧ holdsClear outer = false := by
  simp [holdsClear]

theorem segment_of_uncleared (uncleared : holdsClear overlays = false) :
    Overlays.segment overlays = overlays := by
  induction overlays with
  | nil => rfl
  | cons overlay outer ih =>
    obtain ⟨here, outside⟩ := holdsClear_cons.mp uncleared
    rw [Overlays.segment, if_neg (by simp [here]), ih outside]

/-- Without a clear every own page counts. -/
theorem Held.mem_blocks (held : Held overlays tid) (uncleared : holdsClear overlays = false) :
    tid.block ∈ blocks overlays := by
  obtain ⟨overlay, mem, row⟩ := held
  obtain ⟨entry, found⟩ := isSome_iff_exists.mp row
  rw [blocks, segment_of_uncleared uncleared]
  exact mem_flatMap.mpr ⟨overlay, mem, mem_blocks_of_pendingRow found⟩

end Overlays

namespace Local

variable {here here' : Local} {catalog : RelationCatalog} {tid : Tid}

open Overlays (Held held_cons)

variable {f : RelationOverlay → RelationOverlay}

theorem held_modifyTop (same : ∀ top, (f top).pendingPages = top.pendingPages)
    (held : Held here.overlays tid) :
    Held (here.modifyTop f).overlays tid := by
  obtain ⟨relation, overlays⟩ := here
  cases overlays with
  | nil => exact held
  | cons top outer =>
    exact held.innermost fun found => by rwa [pendingRow_congr (same top)]

theorem Stamps.held (stamps : Stamps here here') (held : Held here.overlays tid) :
    Held here'.overlays tid := by
  cases stamps with
  | shared => exact held
  | own keeps stamped =>
    obtain ⟨-, -, -, rows⟩ := modifyPendingPage_spec keeps.block keeps.row stamped
    exact held.innermost fun found => by rw [rows]; exact found

theorem held_ensureTransaction (held : Held here.overlays tid) :
    Held here.ensureTransaction.overlays tid := by
  unfold ensureTransaction
  split
  · rename_i none
    rw [none] at held
    obtain ⟨overlay, mem, -⟩ := held
    cases mem
  · exact held

theorem held_append {tuple : Bytes} {result : Option Tid}
    (stack : StackSound here.relation here.overlays)
    (appended : here.appendPendingTuple catalog tuple = (here', result))
    (held : Held here.overlays tid) : Held here'.overlays tid := by
  obtain ⟨top, top', outer, before, after, places⟩ := appendPendingTuple_places stack appended
  have started := held_ensureTransaction held
  rw [before] at started
  rw [after]
  refine started.innermost fun found => ?_
  rcases places.stored with ⟨-, pages⟩ | ⟨pages, -⟩
  · rw [pages]
    split
    · rfl
    · exact found
  · rwa [pages]

theorem insertHotRedirect_pendingPages (top : RelationOverlay) (old new : Tid) :
    (top.insertHotRedirect old new).pendingPages = top.pendingPages := by
  unfold insertHotRedirect
  split <;> rfl

/-- Row operations keep the rows of own pages. -/
theorem Move.held (move : Move catalog here here') (stack : StackSound here.relation here.overlays)
    (held : Held here.overlays tid) : Held here'.overlays tid := by
  cases move with
  | start => exact held_ensureTransaction held
  | compress | compressUpdate | limit => exact held
  | append _ tuple => exact held_append stack (Prod.eta _).symm held
  | @appendOwn relation top top' outer tuple tid' appended =>
    exact @held_append _ _ catalog _ _ _ stack (appendPendingTuple_own appended) held
  | stampInsert _ stamped xid cid =>
    exact (here.setInsertMetadata_stamps stamped xid cid).held (held_modifyTop (fun _ => rfl) held)
  | stampXmax _ stamped xmax => exact (here.setRowXmax_stamps stamped xmax).held held
  | invalidate => exact held_modifyTop (fun _ => rfl) held
  | redirect =>
    refine held.innermost fun found => ?_
    rwa [pendingRow_congr (insertHotRedirect_pendingPages ..)]
  | note _ f same => exact held_modifyTop (fun top => (same top).pendingPages) held

theorem Moves.held (moves : Moves catalog here here')
    (stack : StackSound here.relation here.overlays) (held : Held here.overlays tid) :
    Held here'.overlays tid := by
  induction moves with
  | refl => exact held
  | tail first last ih => exact last.held (Moves.writes first stack).stack ih

/-! ## Unused tids -/

/-- Nothing was ever stored at the tid, as far as a session can tell. -/
def Unused (here : Local) (tid : Tid) : Prop :=
  here.relation.nextBlock ≤ tid.block ∨
    (here.relation.physical tid.block ∧ here.relation.row tid = none) ∨
    (tid.block ∈ Overlays.blocks here.overlays ∧ ¬ Held here.overlays tid)

/-- Something is stored at the tid, in the relation or in an own page. -/
def Taken (here : Local) (tid : Tid) : Prop :=
  (here.relation.row tid).isSome ∨ Held here.overlays tid

variable {check : UniqueCheck} {key : SingleByvalHotKey}

/-- Row operations make no tid unused. -/
theorem Moves.unused (moves : Moves catalog here here')
    (stack : StackSound here.relation here.overlays) (unused : here'.Unused tid) :
    here.Unused tid := by
  have writes := moves.writes stack
  rcases unused with beyond | ⟨paged, missing⟩ | ⟨own, unheld⟩
  · exact .inl (writes.grows.frontier.trans beyond)
  · rcases writes.grows.filed _ paged with old | beyond
    · refine .inr (.inl ⟨old, ?_⟩)
      cases found : here.relation.row tid with
      | none => rfl
      | some entry =>
        have kept := writes.grows.rows tid (by rw [found]; rfl)
        rw [missing] at kept
        cases kept
    · exact .inl beyond
  · rcases writes.blocks _ own with old | beyond
    · exact .inr (.inr ⟨old, fun held => unheld (moves.held stack held)⟩)
    · exact .inl beyond

/-! ## Appending takes an unused tid -/

theorem append_unused {tuple : Bytes} (stack : StackSound here.relation here.overlays)
    (uncleared : Overlays.holdsClear here.overlays = false)
    (appended : here.appendPendingTuple catalog tuple = (here', some tid)) :
    here.Unused tid ∧ here'.Taken tid := by
  obtain ⟨top, top', outer, before, after, places⟩ := appendPendingTuple_places stack appended
  obtain ⟨missing, unpaged, place⟩ := places.free tid rfl
  constructor
  · rcases place with own | paged | beyond
    · -- The page is one of the innermost level, so no other level holds the row.
      have levels : here.overlays = top :: outer := by
        unfold ensureTransaction at before
        split at before
        · cases before
          cases own
        · exact before
      rw [levels] at stack uncleared
      obtain ⟨topFree, outerFree⟩ := Overlays.holdsClear_cons.mp uncleared
      refine .inr (.inr ⟨levels ▸ Overlays.mem_blocks_cons.mpr (.inl own), fun held => ?_⟩)
      rw [levels] at held
      rcases held_cons.mp held with here | outside
      · rw [unpaged] at here
        cases here
      · exact stack.1.apart topFree _ own (outside.mem_blocks outerFree)
    · exact .inr (.inl ⟨paged, missing⟩)
    · exact .inl beyond
  · rcases places.stored with ⟨-, pages⟩ | ⟨-, rows⟩
    · right
      rw [after, held_cons, pages, if_pos rfl]
      exact .inl rfl
    · left
      rw [rows, if_pos rfl]
      rfl

/-- Row operations keep what is stored. -/
theorem Moves.taken (moves : Moves catalog here here')
    (stack : StackSound here.relation here.overlays) (taken : here.Taken tid) : here'.Taken tid :=
  taken.imp ((moves.writes stack).grows.rows tid) (moves.held stack)

/-- The tid an operation returns was unused before and is taken after it. -/
theorem Outcome.unused {may : Local → Tid → Prop}
    (outcome : Outcome catalog may here (here', some tid))
    (stack : StackSound here.relation here.overlays)
    (uncleared : Overlays.holdsClear here.overlays = false) : here.Unused tid ∧ here'.Taken tid := by
  obtain ⟨looked, appended, tuple, resolved, placed, after⟩ := outcome.handed stack tid rfl
  have before : Moves catalog here looked := resolved.moves
  have stack' := (before.writes stack).stack
  obtain ⟨unused, taken⟩ := append_unused stack' (resolved.same.2 ▸ uncleared) placed
  exact ⟨before.unused stack unused, after.taken (appendPendingTuple_writes stack' placed).stack taken⟩

/-! ## What commits assign -/

/-- The tids a commit gives to the rows it moves. -/
def assigned (here : Local) : List Tid :=
  match here.overlays with
  | [] => []
  | top :: rest =>
    match (mergeAll top rest).pendingPages.foldlM (publishPage (mergeAll top rest))
        (here.relation, []) with
    | some (_, remaps) => remaps.map Prod.snd
    | none => []

variable {relation : RelationStorage} {child parent : RelationOverlay} {outer : Overlays}

/-- A released level keeps its rows in the level it is released into. -/
theorem release_held (stack : StackSound relation (child :: parent :: outer))
    (uncleared : Overlays.holdsClear (child :: parent :: outer) = false) :
    Held (parent.appendFrom child :: outer) tid ↔ Held (child :: parent :: outer) tid := by
  have childFree := (Overlays.holdsClear_cons.mp uncleared).1
  obtain ⟨pages, -⟩ := @appendFrom_of_uncleared parent child childFree
  have row := pendingRow_append pages tid
  simp only [held_cons, row]
  by_cases own : tid.block ∈ child.blocks
  · have elsewhere : parent.pendingRow tid = none := by
      cases found : parent.pendingRow tid with
      | none => rfl
      | some entry =>
        have inside : tid.block ∈ Overlays.blocks (parent :: outer) :=
          Overlays.mem_blocks_cons.mpr (.inl (RelationOverlay.mem_blocks_of_pendingRow found))
        exact absurd inside (stack.1.apart childFree _ own)
    simp [own, elsewhere]
  · have elsewhere : child.pendingRow tid = none := by
      cases found : child.pendingRow tid with
      | none => rfl
      | some entry => exact absurd (mem_blocks_of_pendingRow found) own
    simp [own, elsewhere]

theorem release_uncleared (uncleared : Overlays.holdsClear (child :: parent :: outer) = false) :
    Overlays.holdsClear (parent.appendFrom child :: outer) = false := by
  obtain ⟨childFree, rest⟩ := Overlays.holdsClear_cons.mp uncleared
  obtain ⟨parentFree, outerFree⟩ := Overlays.holdsClear_cons.mp rest
  obtain ⟨-, -, saved, -⟩ := @RelationOverlay.appendFrom_of_uncleared parent child childFree
  refine Overlays.holdsClear_cons.mpr ⟨?_, outerFree⟩
  simpa [RelationOverlay.cleared, saved] using parentFree

theorem mergeAll_held {top : RelationOverlay} (stack : StackSound relation (top :: outer))
    (uncleared : Overlays.holdsClear (top :: outer) = false) :
    ((mergeAll top outer).pendingRow tid).isSome ↔ Held (top :: outer) tid := by
  induction outer generalizing top with
  | nil => simp [mergeAll, Held]
  | cons parent rest ih =>
    rw [mergeAll, ih (release_stack stack) (release_uncleared uncleared)]
    exact release_held stack uncleared

/-- Merging the levels leaves the unused tids as they are. -/
theorem mergeAll_unused {top : RelationOverlay}
    (stack : StackSound relation (top :: outer))
    (uncleared : Overlays.holdsClear (top :: outer) = false)
    (unused : Unused ⟨relation, [mergeAll top outer]⟩ tid) : Unused ⟨relation, top :: outer⟩ tid := by
  refine unused.imp_right (Or.imp_right fun ⟨own, unheld⟩ => ⟨?_, fun held => unheld ?_⟩)
  · have merged : tid.block ∈ (mergeAll top outer).blocks := by
      rcases Overlays.mem_blocks_cons.mp own with here | ⟨-, outside⟩
      · exact here
      · cases outside
    exact (mergeAll_segment.1 _).mp merged
  · exact held_cons.mpr (.inl ((mergeAll_held stack uncleared).mpr held))

section Publishing

variable {start : RelationStorage} {overlay : RelationOverlay} {kept : List Page} {done : List Tid}
  {state : Publishing}

theorem Published.keptBlock (published : Published start overlay kept done state) {page : Page}
    (mem : page ∈ kept) (named : tid.block = page.block) :
    tid.block ∈ Overlays.blocks [overlay] := by
  refine Overlays.mem_blocks_cons.mpr (.inl ?_)
  rw [named]
  exact mem_map.mpr ⟨page, (published.keptFiled page mem).1, rfl⟩

/-- A row is moved to an unused tid. -/
theorem Published.unused (published : Published start overlay kept done state) {old new : Tid}
    (moved : (old, new) ∈ state.2) : Unused ⟨start, [overlay]⟩ new := by
  obtain ⟨missing, unpaged, place⟩ := published.fresh old new moved
  rcases place with paged | beyond | ⟨page, mem, named⟩
  · exact .inr (.inl ⟨paged, missing⟩)
  · exact .inl beyond
  · refine .inr (.inr ⟨published.keptBlock mem named, fun held => ?_⟩)
    rcases held_cons.mp held with here | ⟨_, outside, _⟩
    · rw [unpaged] at here
      cases here
    · cases outside

/-- What the published relation has not used was not used before. -/
theorem Published.shrinks (published : Published start overlay kept done state)
    (level : LevelSound start overlay []) (unused : state.1.nextBlock ≤ tid.block ∨
      (state.1.physical tid.block ∧ state.1.row tid = none)) : Unused ⟨start, [overlay]⟩ tid := by
  rcases unused with beyond | ⟨paged, absent⟩
  · exact .inl (published.frontier.trans beyond)
  · rcases published.filed _ paged with old | beyond | ⟨page, mem, named⟩
    · refine .inr (.inl ⟨old, ?_⟩)
      cases found : start.row tid with
      | none => rfl
      | some entry =>
        rw [published.old tid entry found] at absent
        cases absent
    · exact .inl beyond
    · refine .inr (.inr ⟨published.keptBlock mem named, fun held => ?_⟩)
      rcases held_cons.mp held with here | ⟨_, outside, _⟩
      · -- A row of a kept page is filed with it.
        obtain ⟨entry, found⟩ := isSome_iff_exists.mp here
        rw [pendingRow_of_mem level.distinct (published.keptFiled page mem).1
          named] at found
        have filed := published.keptRow page mem tid.offset entry found
        rw [← named] at filed
        cases absent.symm.trans filed
      · cases outside

end Publishing

/-- The relation after a commit, as far as tids are concerned. -/
structure Assigns (here : Local) (relation' : RelationStorage) : Prop where
  shrinks : ∀ tid, relation'.nextBlock ≤ tid.block ∨
    (relation'.physical tid.block ∧ relation'.row tid = none) → here.Unused tid
  unused : ∀ tid ∈ here.assigned, here.Unused tid
  taken : ∀ tid ∈ here.assigned, (relation'.row tid).isSome
  distinct : here.assigned.Nodup

theorem commitAll_assigns {relation' : RelationStorage}
    (stack : StackSound here.relation here.overlays)
    (uncleared : Overlays.holdsClear here.overlays = false)
    (committed : here.commitAll = some relation') : Assigns here relation' := by
  obtain ⟨relation, overlays⟩ := here
  cases overlays with
  | nil =>
    cases committed
    refine ⟨fun tid unused => unused.imp_right .inl, fun tid mem => ?_, fun tid mem => ?_,
      nodup_nil⟩
    · cases mem
    · cases mem
  | cons top rest =>
    have level := (mergeAll_stack stack).1
    have merged := fun tid => @mergeAll_unused tid _ _ _ stack uncleared
    unfold commitAll commitOverlay at committed
    dsimp only at committed
    cases pages : (mergeAll top rest).pendingPages.foldlM (publishPage (mergeAll top rest))
        (relation, []) with
    | none => simp [pages] at committed
    | some state =>
      obtain ⟨relation₁, remaps⟩ := state
      simp only [pages, bind_eq_bind, bind_some, some.injEq] at committed
      subst committed
      obtain ⟨kept, done, published, -⟩ := published_of_commit level pages
      obtain ⟨rows, -, frontier, physical, -⟩ :=
        publishChanges_spec ((mergeAll top rest).remapTids remaps) relation₁
      have some_ : ∀ tid, ((publishChanges ((mergeAll top rest).remapTids remaps)
          relation₁).row tid).isSome = (relation₁.row tid).isSome := fun tid => by
        rw [rows, appliedRow_isSome]
      have listed : assigned ⟨relation, top :: rest⟩ = remaps.map Prod.snd := by
        simp [assigned, pages]
      constructor
      · intro tid unused
        refine merged tid (published.shrinks level (unused.imp (frontier ▸ ·) ?_))
        rintro ⟨paged, missing⟩
        refine ⟨(physical _).mp paged, isNone_iff_eq_none.mp ?_⟩
        rw [← not_isSome, ← some_, missing]
        rfl
      · intro tid mem
        rw [listed] at mem
        obtain ⟨⟨old, new⟩, moved, rfl⟩ := mem_map.mp mem
        exact merged new (published.unused moved)
      · intro tid mem
        rw [listed] at mem
        obtain ⟨⟨old, new⟩, moved, rfl⟩ := mem_map.mp mem
        obtain ⟨-, bytes, -, stored⟩ := published.moved old new moved
        rw [some_, stored]
        rfl
      · rw [listed]
        exact published.targets

end Local

end FastPg.Storage
