import FastPg.Storage.Commit

/-! # Well-formed levels

What an open transaction keeps on one relation. Its own pages have blocks of
their own below the allocation frontier, and every row it inserted is stored
there or waits in a shared page. A clear puts a new relation in place, so the
levels outside it are described against the relation it saved.
-/

namespace FastPg.Storage

open Assoc Option RelationStorage RelationOverlay Overlays
open List hiding insert lookup

/-! ## Own pages -/

theorem updateFirst_of_find {α : Type*} {p : α → Bool} {f : α → α} {items : List α} {a : α}
    (found : items.find? p = some a) :
    ∃ before after, items = before ++ a :: after ∧ updateFirst p f items = before ++ f a :: after := by
  induction items with
  | nil => cases found
  | cons b rest ih =>
    cases here : p b with
    | true =>
      simp only [find?_cons, here, some.injEq] at found
      subst found
      exact ⟨[], rest, rfl, by simp [updateFirst, here]⟩
    | false =>
      simp only [find?_cons, here] at found
      obtain ⟨before, after, split, updated⟩ := ih found
      exact ⟨b :: before, after, by simp [split], by simp [updateFirst, here, updated]⟩

/-- Changing the first page of a block leaves every lookup by block as it was,
    up to the change. -/
theorem find_updateFirst_block (block : Nat) {f : Page → Page}
    (keeps : ∀ page, (f page).block = page.block) (pages : List Page) (other : Nat) :
    (updateFirst (fun page => page.block = block) f pages).find? (fun page => page.block = other) =
      (pages.find? fun page => page.block = other).map fun page =>
        if other = block then f page else page := by
  induction pages with
  | nil => rfl
  | cons page rest ih =>
    by_cases here : page.block = block
    · by_cases wanted : page.block = other
      · have same : other = block := wanted ▸ here
        simp [updateFirst, here, keeps, same]
      · have ne : other ≠ block := fun same => wanted (here.trans same.symm)
        simp [updateFirst, here, keeps, ne, Ne.symm ne]
    · by_cases wanted : page.block = other
      · have ne : other ≠ block := fun same => here (wanted.trans same)
        simp [updateFirst, wanted, ne]
      · simp [updateFirst, here, wanted, ih]

namespace RelationOverlay

/-- The blocks of the pages a level filled by itself. -/
def blocks (overlay : RelationOverlay) : List Nat := overlay.pendingPages.map Page.block

variable {overlay : RelationOverlay} {page : Page} {tid : Tid} {overlay' : RelationOverlay}
  {result : Option Tid}

theorem pendingPage_spec {block : Nat} (found : overlay.pendingPage block = some page) :
    page ∈ overlay.pendingPages ∧ page.block = block := by
  unfold pendingPage at found
  have mem := mem_of_find?_eq_some found
  have named := find?_some found
  simp only [mem_reverse] at mem
  exact ⟨mem, by simpa using named⟩

theorem mem_blocks_of_pendingRow {entry : LinePointerState × Bytes}
    (found : overlay.pendingRow tid = some entry) :
    tid.block ∈ overlay.blocks := by
  unfold pendingRow at found
  cases paged : overlay.pendingPage tid.block with
  | none => simp [paged] at found
  | some page =>
    obtain ⟨mem, named⟩ := pendingPage_spec paged
    exact mem_map.mpr ⟨page, mem, named⟩

/-- Pages with distinct blocks are found by their block. -/
theorem pendingPage_of_mem (distinct : overlay.blocks.Nodup) (mem : page ∈ overlay.pendingPages) :
    overlay.pendingPage page.block = some page := by
  cases paged : overlay.pendingPage page.block with
  | none =>
    unfold pendingPage at paged
    rw [find?_eq_none] at paged
    exact absurd (paged page (mem_reverse.mpr mem)) (by simp)
  | some other =>
    obtain ⟨otherMember, named⟩ := pendingPage_spec paged
    rw [inj_on_of_nodup_map distinct otherMember mem named]

theorem pendingRow_of_mem (distinct : overlay.blocks.Nodup) (mem : page ∈ overlay.pendingPages)
    (here : tid.block = page.block) :
    overlay.pendingRow tid = page.row tid.offset := by
  simp [pendingRow, here, pendingPage_of_mem distinct mem]

theorem pendingTupleSlice_eq (overlay : RelationOverlay) (tid : Tid) :
    overlay.pendingTupleSlice tid = (overlay.pendingRow tid).bind fun row =>
      if Page.readable true row.1 then some row.2 else none := by
  unfold pendingTupleSlice pendingRow
  cases overlay.pendingPage tid.block with
  | none => rfl
  | some page => exact page.tupleSlice_eq tid.offset true

/-- Two levels with the same own pages. -/
theorem pendingRow_congr {a b : RelationOverlay} (same : a.pendingPages = b.pendingPages)
    (tid : Tid) : a.pendingRow tid = b.pendingRow tid := by
  simp [pendingRow, pendingPage, same]

/-- Replacing the page `page` by `page'` of the same block. -/
theorem pendingRow_replace {overlay : RelationOverlay} {before after : List Page}
    {page page' : Page} (distinct : overlay.blocks.Nodup)
    (old : overlay.pendingPages.reverse = before ++ page :: after)
    (named : page'.block = page.block) {overlay' : RelationOverlay}
    (new : overlay'.pendingPages = (before ++ page' :: after).reverse) (tid : Tid) :
    overlay'.blocks = overlay.blocks ∧
      overlay'.pendingRow tid =
        if tid.block = page.block then page'.row tid.offset else overlay.pendingRow tid := by
  have oldPages : overlay.pendingPages = (before ++ page :: after).reverse := by
    rw [← old, reverse_reverse]
  have sameBlocks : overlay'.blocks = overlay.blocks := by
    simp [blocks, oldPages, new, named]
  refine ⟨sameBlocks, ?_⟩
  split
  · rename_i here
    have mem : page' ∈ overlay'.pendingPages := by simp [new]
    have found := pendingPage_of_mem (sameBlocks ▸ distinct) mem
    rw [named, ← here] at found
    simp [pendingRow, found]
  · rename_i elsewhere
    have oldSkips : (page.block = tid.block) = False := by simpa using Ne.symm elsewhere
    have newSkips : (page'.block = tid.block) = False := by rw [named]; exact oldSkips
    simp [pendingRow, pendingPage, new, old, find?_append, oldSkips, newSkips]

/-- One spec for appending to an own page: nothing, or one new pending row
    past the end of a page the level already has. -/
theorem appendPendingTupleToExistingPage_spec {tuple : Bytes} {limit : Option Nat}
    (distinct : overlay.blocks.Nodup)
    (h : overlay.appendPendingTupleToExistingPage tuple limit = (overlay', result)) :
    ∃ pages, overlay' = { overlay with pendingPages := pages } ∧ overlay'.blocks = overlay.blocks ∧
      ((result = none ∧ ∀ tid, overlay'.pendingRow tid = overlay.pendingRow tid) ∨
        ∃ tid, result = some tid ∧ tid.block ∈ overlay.blocks ∧ overlay.pendingRow tid = none ∧
          ∀ other, overlay'.pendingRow other =
            if other = tid then some (.pending, tuple) else overlay.pendingRow other) := by
  unfold appendPendingTupleToExistingPage at h
  dsimp only at h
  cases chosen : overlay.pendingPages.reverse.find? (pageAccepts limit tuple.length) with
  | none =>
    simp only [chosen] at h
    cases h
    exact ⟨overlay.pendingPages, rfl, rfl, .inl ⟨rfl, fun _ => rfl⟩⟩
  | some page =>
    simp only [chosen] at h
    obtain ⟨before, after, old, updated⟩ := updateFirst_of_find
      (f := fun page => (page.appendTupleWithState tuple .pending).1) chosen
    rw [updated] at h
    have mem : page ∈ overlay.pendingPages := by
      rw [← mem_reverse, old]
      simp
    cases appended : page.appendTupleWithState tuple .pending with
    | mk page' outcome =>
      rw [appended] at h
      dsimp only at h
      cases h
      obtain ⟨named, rows⟩ := Page.appendTupleWithState_spec appended
      have replaced := @pendingRow_replace overlay before after page page' distinct old named
        { overlay with pendingPages := (before ++ page' :: after).reverse } rfl
      refine ⟨_, rfl, (replaced ⟨0, 0⟩).1, ?_⟩
      cases rows with
      | inl unchanged =>
        refine .inl ⟨unchanged.1, fun tid => ?_⟩
        rw [(replaced tid).2, unchanged.2.2]
        split
        · rename_i here
          exact (pendingRow_of_mem distinct mem here).symm
        · rfl
      | inr added =>
        obtain ⟨rfl, -, -, rows⟩ := added
        refine .inr ⟨_, rfl, mem_map.mpr ⟨page, mem, rfl⟩, ?_, fun tid => ?_⟩
        · rw [pendingRow_of_mem distinct mem rfl]
          exact Page.row_eq_none_iff.mpr (.inr (Nat.lt_succ_self _))
        · rw [(replaced tid).2, rows]
          by_cases here : tid.block = page.block
          · simp [here, Tid.ext_iff', pendingRow_of_mem distinct mem here]
          · simp [here, Tid.ext_iff']

/-- One spec for appending to a new own page. -/
theorem appendPendingTupleToNewPage_spec {block minCapacity : Nat} {tuple : Bytes}
    (fresh : block ∉ overlay.blocks)
    (h : overlay.appendPendingTupleToNewPage (Page.new block minCapacity) tuple =
      (overlay', result)) :
    ∃ pages, overlay' = { overlay with pendingPages := pages } ∧
      ((result = none ∧ overlay' = overlay) ∨
        ∃ tid, result = some tid ∧ tid.block = block ∧ overlay'.blocks = overlay.blocks ++ [block] ∧
          overlay.pendingRow tid = none ∧
          ∀ other, overlay'.pendingRow other =
            if other = tid then some (.pending, tuple) else overlay.pendingRow other) := by
  unfold appendPendingTupleToNewPage at h
  cases appended : (Page.new block minCapacity).appendTupleWithState tuple .pending with
  | mk filled outcome =>
    obtain ⟨named, rows⟩ := Page.appendTupleWithState_spec appended
    rw [appended] at h
    cases rows with
    | inl unchanged =>
      obtain ⟨rfl, -, -⟩ := unchanged
      cases h
      exact ⟨overlay.pendingPages, rfl, .inl ⟨rfl, rfl⟩⟩
    | inr added =>
      obtain ⟨rfl, -, -, rows⟩ := added
      cases h
      have absent : ∀ other : Tid, other.block = block → overlay.pendingRow other = none := by
        intro other here
        cases found : overlay.pendingRow other with
        | none => rfl
        | some entry => exact absurd (here ▸ mem_blocks_of_pendingRow found) fresh
      refine ⟨_, rfl, .inr ⟨_, rfl, rfl, ?_, absent _ rfl, ?_⟩⟩
      · simp [blocks, named]
      · intro other
        by_cases here : other.block = block
        · have found : pendingPage { overlay with
              pendingPages := overlay.pendingPages ++ [filled] } other.block = some filled := by
            simp [pendingPage, named, here]
          have stored : pendingRow { overlay with
              pendingPages := overlay.pendingPages ++ [filled] } other =
                filled.row other.offset := by
            simp [pendingRow, found]
          rw [stored, rows, absent other here]
          simp [Tid.ext_iff', here]
        · have skips : (filled.block = other.block) = False := by
            simp [named, Ne.symm here]
          simp [pendingRow, pendingPage, skips, Tid.ext_iff', here]

/-- Stamping a line changes no row. -/
theorem modifyPendingPage_spec {f : Page → Page} (keepsBlock : ∀ page, (f page).block = page.block)
    (keepsRow : ∀ page offset, (f page).row offset = page.row offset)
    (h : overlay.modifyPendingPage tid f = some overlay') :
    ∃ pages, overlay' = { overlay with pendingPages := pages } ∧ overlay'.blocks = overlay.blocks ∧
      ∀ other, overlay'.pendingRow other = overlay.pendingRow other := by
  unfold modifyPendingPage at h
  cases found : overlay.pendingLine tid with
  | none => simp [found] at h
  | some line =>
    simp only [found, map_some, some.injEq] at h
    subst h
    refine ⟨_, rfl, ?_, fun other => ?_⟩
    · have sameBlocks : ∀ pages : List Page,
          (updateFirst (fun page => page.block = tid.block) f pages).map Page.block =
            pages.map Page.block := by
        intro pages
        induction pages with
        | nil => rfl
        | cons page rest ih =>
          unfold updateFirst
          split <;> simp [keepsBlock, ih]
      simp [blocks, sameBlocks]
    · have found := find_updateFirst_block tid.block keepsBlock
        overlay.pendingPages.reverse other.block
      simp only [pendingRow, pendingPage, reverse_reverse, found]
      cases overlay.pendingPages.reverse.find? fun page => page.block = other.block with
      | none => rfl
      | some page =>
        simp only [map_some, bind_some]
        split
        · exact keepsRow page other.offset
        · rfl

/-- Where an inserted row is stored: an own page, or a shared page that holds
    it back as pending or has lost it. -/
def Placed (overlay : RelationOverlay) (relation : RelationStorage) (tid : Tid) : Prop :=
  (overlay.pendingRow tid).isSome ∨
    ((relation.row tid).isSome ∧ ∀ bytes, relation.row tid ≠ some (.live, bytes))

end RelationOverlay

namespace Overlays

/-- The levels that use the tids of the relation as it is now. A clear starts
    a new tid space, so nothing outside it counts. -/
def segment : Overlays → Overlays
  | [] => []
  | overlay :: outer => if overlay.cleared then [overlay] else overlay :: segment outer

def blocks (overlays : Overlays) : List Nat := (segment overlays).flatMap RelationOverlay.blocks

def inserted (overlays : Overlays) : List Tid :=
  (segment overlays).flatMap RelationOverlay.insertedTids

theorem mem_blocks_cons {overlay : RelationOverlay} {outer : Overlays} {block : Nat} :
    block ∈ blocks (overlay :: outer) ↔
      block ∈ overlay.blocks ∨ overlay.cleared = false ∧ block ∈ blocks outer := by
  cases here : overlay.cleared <;> simp [blocks, segment, here]

theorem mem_inserted_cons {overlay : RelationOverlay} {outer : Overlays} {tid : Tid} :
    tid ∈ inserted (overlay :: outer) ↔
      tid ∈ overlay.insertedTids ∨ overlay.cleared = false ∧ tid ∈ inserted outer := by
  cases here : overlay.cleared <;> simp [inserted, segment, here]

/-- Whether some level cleared the relation. -/
def holdsClear (overlays : Overlays) : Bool := overlays.any RelationOverlay.cleared

end Overlays

/-- What one level keeps against the relation it works on. -/
structure LevelSound (relation : RelationStorage) (overlay : RelationOverlay) (outer : Overlays) :
    Prop where
  sound : relation.Sound
  distinct : overlay.blocks.Nodup
  unfiled : ∀ block ∈ overlay.blocks, ¬ relation.physical block
  below : ∀ block ∈ overlay.blocks, block < relation.nextBlock
  pending : ∀ tid entry, overlay.pendingRow tid = some entry → entry.1 = .pending
  placed : ∀ tid ∈ overlay.insertedTids, overlay.Placed relation tid
  apart : overlay.cleared = false → ∀ block ∈ overlay.blocks, block ∉ Overlays.blocks outer
  checkpointed : overlay.relationCheckpoint = none → overlay.pageCheckpoints = []

/-- A property of every level of a stack, each against the relation it works
    on: outside a clear that is the relation the clear saved. -/
def Levels (base : RelationStorage → Prop)
    (level : RelationStorage → RelationOverlay → Overlays → Prop) :
    RelationStorage → Overlays → Prop
  | relation, [] => base relation
  | relation, overlay :: outer =>
    level relation overlay outer ∧
      Levels base level (overlay.clearedRelation.getD relation) outer

abbrev StackSound : RelationStorage → Overlays → Prop := Levels RelationStorage.Sound LevelSound

variable {relation before after : RelationStorage} {overlays : Overlays} {overlay : RelationOverlay}

theorem StackSound.sound (stack : StackSound relation overlays) : relation.Sound := by
  cases overlays with
  | nil => exact stack
  | cons overlay outer => exact stack.1.sound

namespace RelationOverlay

theorem clearedRelation_of_not_cleared (uncleared : overlay.cleared = false) :
    overlay.clearedRelation = none := by
  simpa [cleared] using uncleared

end RelationOverlay

theorem StackSound.outer {outer : Overlays}
    (stack : StackSound relation (overlay :: outer)) (uncleared : overlay.cleared = false) :
    StackSound relation outer := by
  have tail := stack.2
  rwa [clearedRelation_of_not_cleared uncleared] at tail

theorem StackSound.unfiled
    (stack : StackSound relation overlays) {block : Nat} (mem : block ∈ blocks overlays) :
    ¬ relation.physical block ∧ block < relation.nextBlock := by
  induction overlays with
  | nil => cases mem
  | cons overlay outer ih =>
    cases mem_blocks_cons.mp mem with
    | inl own => exact ⟨stack.1.unfiled block own, stack.1.below block own⟩
    | inr outside => exact ih (stack.outer outside.1) outside.2

/-- Every inserted row of the segment is in an own page or is a row of the
    relation that is not live. -/
theorem StackSound.placed
    (stack : StackSound relation overlays) {tid : Tid} (mem : tid ∈ inserted overlays) :
    tid.block ∈ blocks overlays ∨
      ((relation.row tid).isSome ∧ ∀ bytes, relation.row tid ≠ some (.live, bytes)) := by
  induction overlays with
  | nil => cases mem
  | cons overlay outer ih =>
    cases mem_inserted_cons.mp mem with
    | inl own =>
      cases stack.1.placed tid own with
      | inl paged =>
        obtain ⟨entry, found⟩ := isSome_iff_exists.mp paged
        exact .inl (mem_blocks_cons.mpr
          (.inl (mem_blocks_of_pendingRow found)))
      | inr shared => exact .inr shared
    | inr outside =>
      cases ih (stack.outer outside.1) outside.2 with
      | inl paged => exact .inl (mem_blocks_cons.mpr (.inr ⟨outside.1, paged⟩))
      | inr shared => exact .inr shared

/-! ## Changing the relation under a stack -/

/-- A change of the relation that a stack of levels survives. -/
structure Keeps (before after : RelationStorage) (overlays : Overlays) : Prop where
  sound : after.Sound
  frontier : before.nextBlock ≤ after.nextBlock
  rows : ∀ tid, (before.row tid).isSome → (after.row tid).isSome
  unfiled : ∀ block ∈ Overlays.blocks overlays, ¬ after.physical block
  held : ∀ tid ∈ Overlays.inserted overlays, ∀ bytes, after.row tid = some (.live, bytes) →
    ∃ bytes, before.row tid = some (.live, bytes)

theorem Keeps.outer {outer : Overlays}
    (kept : Keeps before after (overlay :: outer)) (uncleared : overlay.cleared = false) :
    Keeps before after outer where
  sound := kept.sound
  frontier := kept.frontier
  rows := kept.rows
  unfiled := fun block mem =>
    kept.unfiled block (mem_blocks_cons.mpr (.inr ⟨uncleared, mem⟩))
  held := fun tid mem =>
    kept.held tid (mem_inserted_cons.mpr (.inr ⟨uncleared, mem⟩))

theorem LevelSound.keeps {outer : Overlays} (level : LevelSound before overlay outer)
    (kept : Keeps before after (overlay :: outer)) : LevelSound after overlay outer where
  sound := kept.sound
  distinct := level.distinct
  unfiled := fun block mem => kept.unfiled block (mem_blocks_cons.mpr (.inl mem))
  below := fun block mem => (level.below block mem).trans_le kept.frontier
  pending := level.pending
  placed := by
    intro tid mem
    cases level.placed tid mem with
    | inl paged => exact .inl paged
    | inr shared =>
      refine .inr ⟨kept.rows tid shared.1, fun bytes live => ?_⟩
      obtain ⟨old, oldLive⟩ := kept.held tid (mem_inserted_cons.mpr (.inl mem)) bytes live
      exact shared.2 old oldLive
  apart := level.apart
  checkpointed := level.checkpointed

theorem StackSound.keeps (stack : StackSound before overlays) (kept : Keeps before after overlays) :
    StackSound after overlays := by
  induction overlays with
  | nil => exact kept.sound
  | cons overlay outer ih =>
    refine ⟨stack.1.keeps kept, ?_⟩
    cases saved : overlay.clearedRelation with
    | some relation =>
      have tail := stack.2
      rwa [saved] at tail
    | none =>
      have uncleared : overlay.cleared = false := by simp [cleared, saved]
      exact ih (stack.outer uncleared) (kept.outer uncleared)

/-- A change that publishes nothing: rows stay or are added as pending, pages
    are filed past the frontier, and the live rows are the same. -/
structure Grows (before after : RelationStorage) : Prop where
  sound : after.Sound
  frontier : before.nextBlock ≤ after.nextBlock
  rows : ∀ tid, (before.row tid).isSome → (after.row tid).isSome
  filed : ∀ block, after.physical block → before.physical block ∨ before.nextBlock ≤ block
  live : ∀ tid bytes, after.row tid = some (.live, bytes) ↔ before.row tid = some (.live, bytes)

theorem Grows.refl (sound : relation.Sound) : Grows relation relation :=
  ⟨sound, le_rfl, fun _ => id, fun _ => .inl, fun _ _ => Iff.rfl⟩

theorem Grows.trans {a b c : RelationStorage} (first : Grows a b) (second : Grows b c) :
    Grows a c where
  sound := second.sound
  frontier := first.frontier.trans second.frontier
  rows := fun tid found => second.rows tid (first.rows tid found)
  filed := by
    intro block paged
    cases second.filed block paged with
    | inl middle => exact first.filed block middle
    | inr fresh => exact .inr (first.frontier.trans fresh)
  live := fun tid bytes => (second.live tid bytes).trans (first.live tid bytes)

theorem Grows.of_rows (sound : before.Sound) (rows : ∀ tid, after.row tid = before.row tid)
    (physical : ∀ block, after.physical block ↔ before.physical block)
    (frontier : before.nextBlock ≤ after.nextBlock) (live : after.liveTids = before.liveTids)
    (count : after.liveTupleCount = before.liveTupleCount) : Grows before after := by
  refine ⟨⟨?_, ?_, by rw [count, live, sound.counted]⟩, frontier, ?_, fun block paged => .inl ((physical block).mp paged), ?_⟩
  · intro block paged
    exact (sound.below block ((physical block).mp paged)).trans_le frontier
  · intro tid
    rw [live, rows, sound.live]
  · intro tid found
    rwa [rows]
  · intro tid bytes
    rw [rows]

theorem Grows.of_pages (sound : before.Sound)
    (pages : after.pages = before.pages) (frontier : before.nextBlock ≤ after.nextBlock)
    (live : after.liveTids = before.liveTids)
    (count : after.liveTupleCount = before.liveTupleCount) : Grows before after := by
  have samePage : after.page = before.page := by
    funext block
    simp [page, pages]
  apply Grows.of_rows sound _ _ frontier live count
  · intro tid
    simp [row, samePage]
  · intro block
    simp [physical, samePage]

theorem Grows.keeps (grown : Grows before after) (stack : StackSound before overlays) :
    Keeps before after overlays where
  sound := grown.sound
  frontier := grown.frontier
  rows := grown.rows
  unfiled := by
    intro block mem paged
    obtain ⟨unfiled, below⟩ := stack.unfiled mem
    cases grown.filed block paged with
    | inl old => exact unfiled old
    | inr fresh => exact absurd below (by omega)
  held := fun tid _ bytes live => ⟨bytes, (grown.live tid bytes).mp live⟩

theorem StackSound.grows
    (stack : StackSound before overlays) (grown : Grows before after) : StackSound after overlays :=
  stack.keeps (grown.keeps stack)

end FastPg.Storage
