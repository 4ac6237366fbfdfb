import FastPg.Storage.Operations

/-! # What publishing does

The loop over the pages of a committing overlay is described by one invariant:
pages that keep their tids are filed as they are, every other row is appended
to a shared page under a fresh tid, and a redirect leads from the old tid to
the new one. Nothing that was stored before moves or changes.
-/

namespace FastPg.Storage

open Assoc RelationStorage RelationOverlay Option

/-- Two relations with the same redirects. -/
structure SameLinks (a b : RelationStorage) : Prop where
  hotRedirects : a.hotRedirects = b.hotRedirects
  hotRedirectRoots : a.hotRedirectRoots = b.hotRedirectRoots
  hotRedirectTargets : a.hotRedirectTargets = b.hotRedirectTargets
  hotRedirectTargetRoots : a.hotRedirectTargetRoots = b.hotRedirectTargetRoots
  updateRedirects : a.updateRedirects = b.updateRedirects

variable {a b relation relation' : RelationStorage}

theorem SameLinks.refl : SameLinks a a := ⟨rfl, rfl, rfl, rfl, rfl⟩

theorem SameLinks.trans {c : RelationStorage} (first : SameLinks a b) (second : SameLinks b c) :
    SameLinks a c :=
  ⟨first.1.trans second.1, first.2.trans second.2, first.3.trans second.3, first.4.trans second.4,
    first.5.trans second.5⟩

theorem RelationStorage.Stamps.same (stamps : relation.Stamps relation') :
    relation'.row = relation.row ∧
      (∀ block, relation'.physical block ↔ relation.physical block) ∧ SameLinks relation' relation := by
  cases stamps with
  | none => exact ⟨rfl, fun _ => .rfl, rfl, rfl, rfl, rfl, rfl⟩
  | page keeps =>
    exact ⟨funext (row_modifyPage_unchanged _ _ _ _ keeps.row),
      fun _ => physical_modifyPage, rfl, rfl, rfl, rfl, rfl⟩

theorem RelationStorage.SameMaps.links (same : SameMaps a b) :
    SameLinks a b :=
  ⟨same.hotRedirects, same.hotRedirectRoots, same.hotRedirectTargets, same.hotRedirectTargetRoots,
    same.updateRedirects⟩

theorem RelationStorage.appendTargetBlock_links {tupleLen : Nat} {result : Option Nat}
    (h : relation.appendTargetBlock tupleLen = (relation', result)) :
    SameLinks relation' relation ∧
      relation'.pendingReservedBlocks = relation.pendingReservedBlocks := by
  unfold appendTargetBlock at h
  split at h
  · cases h
    exact ⟨⟨rfl, rfl, rfl, rfl, rfl⟩, rfl⟩
  · split at h
    · cases h
      exact ⟨⟨rfl, rfl, rfl, rfl, rfl⟩, rfl⟩
    · unfold reserveBlock at h
      split at h
      · cases h
        exact ⟨⟨rfl, rfl, rfl, rfl, rfl⟩, rfl⟩
      · rename_i reservation
        split at reservation
        · cases reservation
          cases h
          exact ⟨⟨rfl, rfl, rfl, rfl, rfl⟩, rfl⟩
        · cases reservation

namespace Local

/-- The state of the loop: `kept` are the pages filed as they are, `done` the
    tids of the rows considered for re-appending. -/
structure Published (start : RelationStorage) (overlay : RelationOverlay) (kept : List Page)
    (done : List Tid) (state : Publishing) : Prop where
  sound : state.1.Sound
  frontier : start.nextBlock ≤ state.1.nextBlock
  old : ∀ tid entry, start.row tid = some entry → state.1.row tid = some entry
  keptRow : ∀ page ∈ kept, ∀ offset entry, page.row offset = some entry →
    state.1.row ⟨page.block, offset⟩ = some entry
  keptFiled : ∀ page ∈ kept, page ∈ overlay.pendingPages ∧ state.1.physical page.block
  moved : ∀ old new, (old, new) ∈ state.2 →
    old ∈ done ∧ ∃ bytes, overlay.pendingRow old = some (.pending, bytes) ∧
      state.1.row new = some (.pending, bytes)
  fresh : ∀ old new, (old, new) ∈ state.2 →
    start.row new = none ∧ overlay.pendingRow new = none ∧
      (start.physical new.block ∨ start.nextBlock ≤ new.block ∨
        ∃ page ∈ kept, new.block = page.block)
  sourced : ∀ tid entry, state.1.row tid = some entry → start.row tid = some entry ∨
    (∃ page ∈ kept, tid.block = page.block ∧ page.row tid.offset = some entry) ∨
    ∃ old, (old, tid) ∈ state.2
  complete : ∀ tid ∈ done, (overlay.pendingRow tid).isSome → (lookup state.2 tid).isSome
  sources : (state.2.map Prod.fst).Nodup
  targets : (state.2.map Prod.snd).Nodup
  filed : ∀ block, state.1.physical block → start.physical block ∨ start.nextBlock ≤ block ∨
    ∃ page ∈ kept, block = page.block
  redirects : ∀ tid, lookup state.1.hotRedirects tid =
    (lookup state.2 tid).or (lookup start.hotRedirects tid)
  updates : ∀ tid, lookup state.1.updateRedirects tid =
    (lookup state.2 tid).or (lookup start.updateRedirects tid)
  chains : state.1.hotRedirectRoots = start.hotRedirectRoots ∧
    state.1.hotRedirectTargets = start.hotRedirectTargets ∧
    state.1.hotRedirectTargetRoots = start.hotRedirectTargetRoots

variable {remaps : List (Tid × Tid)} {state' : Publishing}

theorem Published.start (overlay : RelationOverlay)
    (sound : relation.Sound) : Published relation overlay [] [] (relation, []) where
  sound := sound
  frontier := le_rfl
  old := fun _ _ => id
  keptRow := by simp
  keptFiled := by simp
  moved := by simp
  fresh := by simp
  sourced := fun _ _ => .inl
  complete := by simp
  sources := by simp
  targets := by simp
  filed := fun _ => .inl
  redirects := by simp
  updates := by simp
  chains := ⟨rfl, rfl, rfl⟩

/-- Re-appending one row of an own page: nothing for a missing row, else one
    new pending row with the same bytes at a fresh tid and a redirect to it. -/
theorem publishRow_spec {page : Page} {index : Nat}
    {remaps' : List (Tid × Tid)}
    (h : publishRow page (relation, remaps) index = some (relation', remaps'))
    (sound : relation.Sound) (unfiled : ¬ relation.physical page.block)
    (below : page.block < relation.nextBlock)
    (pending : ∀ offset entry, page.row offset = some entry → entry.1 = .pending) :
    (page.row (index + 1) = none ∧ relation' = relation ∧ remaps' = remaps) ∨
      ∃ new bytes, page.row (index + 1) = some (.pending, bytes) ∧
        remaps' = remaps ++ [(⟨page.block, index + 1⟩, new)] ∧
        relation.row new = none ∧ (relation.physical new.block ∨ relation.nextBlock ≤ new.block) ∧
        (∀ tid, relation'.row tid = if tid = new then some (.pending, bytes) else relation.row tid) ∧
        relation'.Sound ∧ relation.nextBlock ≤ relation'.nextBlock ∧
        (∀ block, relation'.physical block → relation.physical block ∨ relation.nextBlock ≤ block) ∧
        (∀ block, relation.physical block → relation'.physical block) ∧
        SameLinks relation' { relation with
          hotRedirects := upsert relation.hotRedirects ⟨page.block, index + 1⟩ new
          updateRedirects := upsert relation.updateRedirects ⟨page.block, index + 1⟩ new } := by
  unfold publishRow at h
  cases line : page.line (index + 1) with
  | none =>
    simp only [line] at h
    cases h
    exact .inl ⟨Page.row_none_of_line line, rfl, rfl⟩
  | some pointer =>
    have row := Page.row_of_line line
    have state : pointer.state = .pending := pending _ _ row
    have slice := page.tupleSlice_eq (index + 1) true
    rw [row] at slice
    simp only [Option.bind_some, state, Page.readable, if_true] at slice
    rw [state] at row
    simp only [line, slice] at h
    generalize Page.readBytes page.bytes pointer.offset pointer.len = bytes at h row
    cases target : relation.appendTargetBlock bytes.length with
    | mk relation₁ block =>
      obtain ⟨sound₁, rows₁, frontier₁, filed₁, keeps₁⟩ :=
        RelationStorage.appendTargetBlock_spec target sound
      have links₁ := (RelationStorage.appendTargetBlock_links target).1
      cases block with
      | none => simp [target] at h
      | some block =>
        cases appended : relation₁.appendPendingTuple block bytes with
        | mk relation₂ result =>
          have sound₂ := RelationStorage.appendPendingTuple_sound appended sound₁
          obtain ⟨maps₂, -, physical₂, outcome⟩ :=
            RelationStorage.appendPendingTuple_spec appended
          rcases outcome with ⟨rfl, -⟩ | ⟨new, rfl, named, paged, missing, rows₂⟩
          · simp [target, appended] at h
          · have ne : (⟨page.block, index + 1⟩ : Tid) ≠ new := by
              intro same
              have samePage : block = page.block := by rw [← named, ← same]
              rw [samePage] at paged
              cases filed₁ _ paged with
              | inl physical => exact unfiled physical
              | inr beyond => omega
            simp only [target, appended, ne, if_false, Option.bind_eq_bind,
              Option.bind_some, Option.some.injEq, Prod.mk.injEq] at h
            obtain ⟨rfl, rfl⟩ := h
            have first := relation₂.setInsertMetadata_stamps new pointer.xmin pointer.cmin
            have second := RelationStorage.setRowXmax_stamps
              (relation₂.setInsertMetadata new pointer.xmin pointer.cmin) new pointer.xmax
            obtain ⟨rows₃, physical₃, links₃⟩ := first.same
            obtain ⟨rows₄, physical₄, links₄⟩ := second.same
            have stamped := (first.grows sound₂).trans (second.grows (first.grows sound₂).sound)
            refine .inr ⟨new, bytes, row, rfl, ?_, ?_, ?_, ?_, ?_, ?_, ?_, ?_⟩
            · rw [← rows₁]
              exact missing
            · rw [named]
              exact filed₁ _ paged
            · intro tid
              refine (congrFun (rows₄.trans rows₃) tid).trans ?_
              rw [rows₂, rows₁]
            · exact stamped.sound.congr rfl le_rfl rfl rfl
            · exact (frontier₁.trans maps₂.nextBlock.ge).trans stamped.frontier
            · intro other paged'
              have before := stamped.filed other paged'
              rw [physical₂, maps₂.nextBlock] at before
              cases before with
              | inl old => exact filed₁ _ old
              | inr beyond => exact .inr (frontier₁.trans beyond)
            · intro other paged'
              exact (physical₄ other).mpr ((physical₃ other).mpr ((physical₂ other).mpr (keeps₁ other paged')))
            · have links := (links₄.trans links₃).trans (maps₂.links.trans links₁)
              exact ⟨congrArg (upsert · _ _) links.hotRedirects, links.hotRedirectRoots,
                links.hotRedirectTargets, links.hotRedirectTargetRoots,
                congrArg (upsert · _ _) links.updateRedirects⟩

variable {start : RelationStorage} {overlay : RelationOverlay} {outer : Overlays} {kept : List Page}
  {done : List Tid} {state : Publishing}

/-- A tid the loop may append at is none of the overlay's own. -/
theorem Published.pendingRow_none {tid : Tid}
    (published : Published start overlay kept done state) (level : LevelSound start overlay outer)
    (place : state.1.physical tid.block ∨ state.1.nextBlock ≤ tid.block)
    (absent : state.1.row tid = none) : overlay.pendingRow tid = none := by
  cases found : overlay.pendingRow tid with
  | none => rfl
  | some entry =>
    have own := mem_blocks_of_pendingRow found
    have below := level.below _ own
    have frontier := published.frontier
    cases place with
    | inr beyond => exact absurd below (by omega)
    | inl paged =>
      rcases published.filed _ paged with physical | beyond | ⟨page, mem, named⟩
      · exact absurd physical (level.unfiled _ own)
      · exact absurd below (by omega)
      · rw [pendingRow_of_mem level.distinct (published.keptFiled page mem).1
          named] at found
        have stored := published.keptRow page mem tid.offset entry found
        rw [← named, absent] at stored
        cases stored

/-- A redirect that goes with a renaming. -/
theorem lookup_moved {redirects start : List (Tid × Tid)} {old new tid : Tid}
    (unsourced : lookup remaps old = none)
    (before : lookup redirects tid = (lookup remaps tid).or (lookup start tid)) :
    lookup (upsert redirects old new) tid =
      (lookup (remaps ++ [(old, new)]) tid).or (lookup start tid) := by
  rw [lookup_upsert, lookup_append]
  by_cases here : old = tid
  · subst here
    simp [unsourced, lookup_cons]
  · simp [here, before, lookup_cons]

/-- One row of a page that does not keep its tids. -/
theorem Published.row
    {page : Page} {index : Nat}
    (published : Published start overlay kept done state) (level : LevelSound start overlay outer)
    (h : publishRow page state index = some state') (mem : page ∈ overlay.pendingPages)
    (unfiled : ¬ state.1.physical page.block)
    (new : (⟨page.block, index + 1⟩ : Tid) ∉ done) :
    Published start overlay kept (done ++ [⟨page.block, index + 1⟩]) state' ∧
      ¬ state'.1.physical page.block := by
  have own : ∀ offset, overlay.pendingRow ⟨page.block, offset⟩ = page.row offset :=
    fun offset => pendingRow_of_mem level.distinct mem rfl
  have pending : ∀ offset entry, page.row offset = some entry → entry.1 = .pending :=
    fun offset entry found => level.pending _ entry ((own offset).trans found)
  have below : page.block < state.1.nextBlock :=
    (level.below _ (List.mem_map.mpr ⟨page, mem, rfl⟩)).trans_le published.frontier
  obtain ⟨relation, remaps⟩ := state
  obtain ⟨relation', remaps'⟩ := state'
  have unsourced : lookup remaps (⟨page.block, index + 1⟩ : Tid) = none :=
    lookup_eq_none.mpr fun value mem => new (published.moved _ _ mem).1
  rcases publishRow_spec h published.sound unfiled below pending with
    ⟨missing, rfl, rfl⟩ | ⟨target, bytes, row, rfl, absent, place, rows, sound, frontier, filed, keeps,
      links⟩
  · refine ⟨{ published with
      moved := ?_
      complete := ?_ }, unfiled⟩
    · intro old new mem
      obtain ⟨source, stored⟩ := published.moved old new mem
      exact ⟨List.mem_append_left _ source, stored⟩
    · intro tid mem found
      cases List.mem_append.mp mem with
      | inl before => exact published.complete tid before found
      | inr last =>
        rw [List.mem_singleton.mp last, own, missing] at found
        cases found
  · have unowned := published.pendingRow_none level place absent
    have keptRow : ∀ tid entry, relation.row tid = some entry → relation'.row tid = some entry := by
      intro tid entry found
      rw [rows, if_neg]
      · exact found
      · rintro rfl
        rw [absent] at found
        cases found
    have startAbsent : start.row target = none := by
      cases found : start.row target with
      | none => rfl
      | some entry =>
        have stored := published.old target entry found
        rw [absent] at stored
        cases stored
    have untargeted : target ∉ remaps.map Prod.snd := by
      intro mem
      obtain ⟨⟨old, _⟩, pair, rfl⟩ := List.mem_map.mp mem
      obtain ⟨-, bytes', -, stored⟩ := published.moved _ _ pair
      rw [absent] at stored
      cases stored
    have placed : ∀ block, relation.physical block ∨ relation.nextBlock ≤ block →
        start.physical block ∨ start.nextBlock ≤ block ∨ ∃ page ∈ kept, block = page.block := by
      intro block place
      cases place with
      | inl paged => exact published.filed block paged
      | inr beyond => exact .inr (.inl (published.frontier.trans beyond))
    refine ⟨⟨sound, published.frontier.trans frontier, ?_, ?_, ?_, ?_, ?_, ?_, ?_, ?_, ?_, ?_, ?_, ?_,
      ⟨links.hotRedirectRoots.trans published.chains.1, links.hotRedirectTargets.trans published.chains.2.1,
        links.hotRedirectTargetRoots.trans published.chains.2.2⟩⟩, ?_⟩
    · exact fun tid entry found => keptRow tid entry (published.old tid entry found)
    · exact fun page' mem offset entry found =>
        keptRow _ entry (published.keptRow page' mem offset entry found)
    · exact fun page' mem =>
        ⟨(published.keptFiled page' mem).1, keeps _ (published.keptFiled page' mem).2⟩
    · intro old new mem
      cases List.mem_append.mp mem with
      | inl before =>
        obtain ⟨source, bytes', stored, read⟩ := published.moved old new before
        exact ⟨List.mem_append_left _ source, bytes', stored, keptRow _ _ read⟩
      | inr last =>
        cases List.mem_singleton.mp last
        exact ⟨List.mem_append_right _ (List.mem_singleton.mpr rfl), bytes,
          (own _).trans row, by rw [rows, if_pos rfl]⟩
    · intro old new mem
      cases List.mem_append.mp mem with
      | inl before => exact published.fresh old new before
      | inr last =>
        cases List.mem_singleton.mp last
        exact ⟨startAbsent, unowned, placed _ place⟩
    · intro tid entry found
      rw [rows] at found
      split at found
      · rename_i here
        subst here
        exact .inr (.inr ⟨_, List.mem_append_right _ (List.mem_singleton.mpr rfl)⟩)
      · rcases published.sourced tid entry found with old | kept | ⟨old, moved⟩
        · exact .inl old
        · exact .inr (.inl kept)
        · exact .inr (.inr ⟨old, List.mem_append_left _ moved⟩)
    · intro tid mem found
      dsimp only
      rw [lookup_append]
      cases List.mem_append.mp mem with
      | inl before =>
        have known := published.complete tid before found
        dsimp only at known
        cases hit : lookup remaps tid with
        | none => simp [hit] at known
        | some new => rfl
      | inr last => simp [List.mem_singleton.mp last, unsourced, lookup_cons]
    · dsimp only
      rw [List.map_append, List.nodup_append]
      refine ⟨published.sources, List.nodup_singleton _, ?_⟩
      intro a source b last same
      obtain ⟨⟨old, value⟩, pair, rfl⟩ := List.mem_map.mp source
      rw [List.mem_singleton.mp last] at same
      dsimp only at same
      subst same
      exact new (published.moved _ _ pair).1
    · dsimp only
      rw [List.map_append, List.nodup_append]
      refine ⟨published.targets, List.nodup_singleton _, ?_⟩
      intro a source b last same
      rw [List.mem_singleton.mp last] at same
      dsimp only at same
      subst same
      exact untargeted source
    · exact fun block paged => placed block (filed block paged)
    · intro tid
      rw [links.hotRedirects]
      exact lookup_moved unsourced (published.redirects tid)
    · intro tid
      rw [links.updateRedirects]
      exact lookup_moved unsourced (published.updates tid)
    · intro paged
      cases filed _ paged with
      | inl before => exact unfiled before
      | inr beyond => exact absurd below (not_lt.mpr beyond)

/-- A page that keeps its tids. -/
theorem Published.keep
    {page : Page}
    (published : Published start overlay kept done state) (level : LevelSound start overlay outer)
    (mem : page ∈ overlay.pendingPages) (unfiled : ¬ state.1.physical page.block) :
    Published start overlay (kept ++ [page]) done (state.1.insertPage page, state.2) := by
  have own : ∀ offset, overlay.pendingRow ⟨page.block, offset⟩ = page.row offset :=
    fun offset => pendingRow_of_mem level.distinct mem rfl
  have below : page.block < state.1.nextBlock :=
    (level.below _ (List.mem_map.mpr ⟨page, mem, rfl⟩)).trans_le published.frontier
  have noLive : ∀ offset bytes, page.row offset ≠ some (.live, bytes) := by
    intro offset bytes found
    cases level.pending _ _ ((own offset).trans found)
  have elsewhere : ∀ tid entry, state.1.row tid = some entry →
      (state.1.insertPage page).row tid = some entry := by
    intro tid entry found
    rw [row_insertPage, if_neg]
    · exact found
    · intro here
      exact unfiled (here ▸ physical_of_row found)
  refine ⟨insertPage_sound published.sound below unfiled noLive,
    published.frontier, ?_, ?_, ?_, ?_, ?_, ?_, published.complete, published.sources,
    published.targets, ?_, published.redirects, published.updates, published.chains⟩
  · exact fun tid entry found => elsewhere tid entry (published.old tid entry found)
  · intro page' member' offset entry found
    cases List.mem_append.mp member' with
    | inl before => exact elsewhere _ entry (published.keptRow page' before offset entry found)
    | inr last =>
      rw [List.mem_singleton.mp last] at found ⊢
      rw [row_insertPage, if_pos rfl]
      exact found
  · intro page' member'
    cases List.mem_append.mp member' with
    | inl before =>
      obtain ⟨owned, paged⟩ := published.keptFiled page' before
      exact ⟨owned, physical_insertPage.mpr (.inr paged)⟩
    | inr last =>
      rw [List.mem_singleton.mp last]
      exact ⟨mem, physical_insertPage.mpr (.inl rfl)⟩
  · intro old new pair
    obtain ⟨source, bytes, stored, read⟩ := published.moved old new pair
    exact ⟨source, bytes, stored, elsewhere _ _ read⟩
  · intro old new pair
    obtain ⟨absent, unowned, place⟩ := published.fresh old new pair
    refine ⟨absent, unowned, ?_⟩
    rcases place with physical | beyond | ⟨page', before, named⟩
    · exact .inl physical
    · exact .inr (.inl beyond)
    · exact .inr (.inr ⟨page', List.mem_append_left _ before, named⟩)
  · intro tid entry found
    dsimp only at found
    rw [row_insertPage] at found
    split at found
    · rename_i here
      exact .inr (.inl ⟨page, List.mem_append_right _ (List.mem_singleton.mpr rfl), here, found⟩)
    · rcases published.sourced tid entry found with old | ⟨page', before, stored⟩ | moved
      · exact .inl old
      · exact .inr (.inl ⟨page', List.mem_append_left _ before, stored⟩)
      · exact .inr (.inr moved)
  · intro block paged
    cases physical_insertPage.mp paged with
    | inl here =>
      exact .inr (.inr ⟨page, List.mem_append_right _ (List.mem_singleton.mpr rfl), here⟩)
    | inr before =>
      rcases published.filed block before with physical | beyond | ⟨page', member', named⟩
      · exact .inl physical
      · exact .inr (.inl beyond)
      · exact .inr (.inr ⟨page', List.mem_append_left _ member', named⟩)

section

variable (published : Published start overlay kept done state)
include published

/-- The rows of one page, in order. -/
theorem Published.rows {page : Page} {indices : List Nat} (level : LevelSound start overlay outer)
    (h : indices.foldlM (publishRow page) state = some state') (mem : page ∈ overlay.pendingPages)
    (unfiled : ¬ state.1.physical page.block) (distinct : indices.Nodup)
    (new : ∀ index ∈ indices, (⟨page.block, index + 1⟩ : Tid) ∉ done) :
    Published start overlay kept (done ++ indices.map fun index => ⟨page.block, index + 1⟩)
      state' := by
  induction indices generalizing done state with
  | nil =>
    simp only [List.foldlM_nil, pure, some.injEq] at h
    simpa [h] using published
  | cons index rest ih =>
    rw [List.foldlM_cons] at h
    cases stepped : publishRow page state index with
    | none => simp [stepped] at h
    | some middle =>
      simp only [stepped, bind_eq_bind, bind_some] at h
      obtain ⟨next, stillUnfiled⟩ := published.row level stepped mem unfiled
        (new index (.head _))
      have finished := ih next h stillUnfiled distinct.of_cons fun other later => by
        intro known
        cases List.mem_append.mp known with
        | inl before => exact new other (.tail _ later) before
        | inr last =>
          simp only [List.mem_singleton, Tid.mk.injEq, Nat.add_right_cancel_iff,
            true_and] at last
          exact (List.nodup_cons.mp distinct).1 (last ▸ later)
      simpa using finished

theorem Published.unreserve (blocks : OrdSet Nat) :
    Published start overlay kept done
      ({ state.1 with pendingReservedBlocks := blocks }, state.2) :=
  ⟨published.sound.congr rfl le_rfl rfl rfl, published.frontier, published.old, published.keptRow,
    published.keptFiled, published.moved, published.fresh, published.sourced, published.complete,
    published.sources, published.targets, published.filed, published.redirects, published.updates,
    published.chains⟩

/-- One page: filed as it is, or moved row by row. -/
theorem Published.page {page : Page} (level : LevelSound start overlay outer)
    (h : publishPage overlay state page = some state') (mem : page ∈ overlay.pendingPages)
    (unfiled : ¬ state.1.physical page.block) (new : ∀ tid ∈ done, tid.block ≠ page.block) :
    Published start overlay (kept ++ [page]) done state' ∨
      (overlay.pendingPageNeedsStableTid page.block = false ∧
        Published start overlay kept (done ++ (List.range page.linePointers.length).map
          fun index => ⟨page.block, index + 1⟩) state') := by
  have ready := published.unreserve (state.1.pendingReservedBlocks.erase page.block)
  obtain ⟨relation, remaps⟩ := state
  unfold publishPage at h
  dsimp only at h
  split at h
  · cases h
    exact .inl (ready.keep level mem unfiled)
  · rename_i moving
    have unstable : overlay.pendingPageNeedsStableTid page.block = false := by
      cases stable : overlay.pendingPageNeedsStableTid page.block with
      | false => rfl
      | true => simp [stable] at moving
    refine .inr ⟨unstable, ready.rows level h mem unfiled (List.nodup_range) ?_⟩
    intro index _ known
    exact new _ known rfl

end

/-- What became of the pages: each is kept, or redirects do not lead into it and
    its rows are moved. -/
structure Disposed (overlay : RelationOverlay) (pages kept : List Page) (done : List Tid) :
    Prop where
  each : ∀ page ∈ pages, page ∈ kept ∨ ∀ offset, (page.row offset).isSome →
    (⟨page.block, offset⟩ : Tid) ∈ done
  own : ∀ page ∈ kept, page ∈ pages
  moved : ∀ tid ∈ done, overlay.pendingPageNeedsStableTid tid.block = false ∧
    ∃ page ∈ pages, page ∉ kept ∧ page.block = tid.block

/-- A further page that is kept. -/
theorem Disposed.keep {pages : List Page}
    {page : Page} (disposed : Disposed overlay pages kept done)
    (apart : ∀ page' ∈ pages, page'.block ≠ page.block) :
    Disposed overlay (page :: pages) (page :: kept) done where
  each := by
    intro page' mem
    cases List.mem_cons.mp mem with
    | inl same => exact .inl (same ▸ List.mem_cons_self ..)
    | inr later => exact (disposed.each page' later).imp_left (List.mem_cons_of_mem _)
  own := by
    intro page' mem
    cases List.mem_cons.mp mem with
    | inl same => exact same ▸ List.mem_cons_self ..
    | inr later => exact .tail _ (disposed.own page' later)
  moved := by
    intro tid mem
    obtain ⟨unstable, page', later, unkept, named⟩ := disposed.moved tid mem
    refine ⟨unstable, page', .tail _ later, ?_, named⟩
    intro listed
    cases List.mem_cons.mp listed with
    | inl same => exact apart page' later (congrArg Page.block same)
    | inr again => exact unkept again

/-- A further page whose rows are moved. -/
theorem Disposed.move {pages : List Page} {rows : List Tid}
    {page : Page} (disposed : Disposed overlay pages kept done)
    (apart : ∀ page' ∈ pages, page'.block ≠ page.block)
    (unstable : overlay.pendingPageNeedsStableTid page.block = false)
    (covered : ∀ offset, (page.row offset).isSome → (⟨page.block, offset⟩ : Tid) ∈ rows)
    (own : ∀ tid ∈ rows, tid.block = page.block) :
    Disposed overlay (page :: pages) kept (rows ++ done) where
  each := by
    intro page' mem
    cases List.mem_cons.mp mem with
    | inl same =>
      subst same
      exact .inr fun offset found => List.mem_append_left _ (covered offset found)
    | inr later =>
      exact (disposed.each page' later).imp_right fun move offset found =>
        List.mem_append_right _ (move offset found)
  own := fun page' mem => .tail _ (disposed.own page' mem)
  moved := by
    intro tid mem
    cases List.mem_append.mp mem with
    | inl row =>
      refine ⟨own tid row ▸ unstable, page, List.mem_cons_self .., ?_, (own tid row).symm⟩
      exact fun listed => apart page (disposed.own page listed) rfl
    | inr later =>
      obtain ⟨stays, page', other, rest⟩ := disposed.moved tid later
      exact ⟨stays, page', .tail _ other, rest⟩

/-- All pages of the overlay. -/
theorem Published.pages {pages : List Page} (published : Published start overlay kept done state)
    (level : LevelSound start overlay outer)
    (h : pages.foldlM (publishPage overlay) state = some state')
    (own : ∀ page ∈ pages, page ∈ overlay.pendingPages) (distinct : (pages.map Page.block).Nodup)
    (unfiled : ∀ page ∈ pages, ¬ state.1.physical page.block)
    (new : ∀ page ∈ pages, ∀ tid ∈ done, tid.block ≠ page.block) :
    ∃ kept' done', Published start overlay (kept ++ kept') (done ++ done') state' ∧
      Disposed overlay pages kept' done' := by
  induction pages generalizing kept done state with
  | nil =>
    simp only [List.foldlM_nil, pure, some.injEq] at h
    exact ⟨[], [], by simpa [h] using published, by simp, by simp, by simp⟩
  | cons page rest ih =>
    rw [List.foldlM_cons] at h
    cases stepped : publishPage overlay state page with
    | none => simp [stepped] at h
    | some middle =>
      simp only [stepped, bind_eq_bind, bind_some] at h
      have here : page ∈ page :: rest := List.mem_cons_self ..
      rw [List.map_cons, List.nodup_cons] at distinct
      have apart : ∀ page' ∈ rest, page'.block ≠ page.block := fun page' later same =>
        distinct.1 (List.mem_map.mpr ⟨page', later, same⟩)
      have stillUnfiled : ∀ kept₁ done₁, Published start overlay kept₁ done₁ middle →
          (∀ page' ∈ kept₁, page' ∈ kept ∨ page' = page) →
          ∀ page' ∈ rest, ¬ middle.1.physical page'.block := by
        intro kept₁ done₁ next origin page' later paged
        have owned : page'.block ∈ overlay.blocks :=
          List.mem_map.mpr ⟨page', own page' (.tail _ later), rfl⟩
        have below := level.below _ owned
        rcases next.filed _ paged with physical | beyond | ⟨page'', kept'', named⟩
        · exact level.unfiled _ owned physical
        · omega
        · cases origin page'' kept'' with
          | inl before =>
            refine unfiled page' (.tail _ later) ?_
            rw [named]
            exact (published.keptFiled page'' before).2
          | inr same => exact apart page' later (by rw [named, same])
      cases published.page level stepped (own page here) (unfiled page here) (new page here) with
      | inl keptPage =>
        obtain ⟨kept', done', final, disposed⟩ := ih keptPage h
          (fun page' later => own page' (.tail _ later)) distinct.2
          (stillUnfiled _ _ keptPage (by simp))
          (fun page' later => new page' (.tail _ later))
        exact ⟨page :: kept', done', by simpa using final, disposed.keep apart⟩
      | inr movedPage =>
        obtain ⟨unstable, movedPage⟩ := movedPage
        obtain ⟨kept', done', final, disposed⟩ := ih movedPage h
          (fun page' later => own page' (.tail _ later)) distinct.2
          (stillUnfiled _ _ movedPage fun page' mem => .inl mem)
          (by
            intro page' later tid known
            cases List.mem_append.mp known with
            | inl before => exact new page' (.tail _ later) tid before
            | inr row =>
              obtain ⟨index, -, rfl⟩ := List.mem_map.mp row
              exact (apart page' later).symm)
        refine ⟨kept', (List.range page.linePointers.length).map
          (fun index => ⟨page.block, index + 1⟩) ++ done', by simpa using final,
          disposed.move apart unstable ?_ ?_⟩
        · intro offset found
          have inside := Page.row_isSome_iff.mp found
          refine List.mem_map.mpr ⟨offset - 1, List.mem_range.mpr (by omega), ?_⟩
          exact Tid.ext_iff'.mpr ⟨rfl, by dsimp only; omega⟩
        · intro tid row
          obtain ⟨index, -, rfl⟩ := List.mem_map.mp row
          rfl

/-- What the loop over the pages of a committing overlay leaves. -/
theorem published_of_commit (level : LevelSound start overlay outer)
    (h : overlay.pendingPages.foldlM (publishPage overlay) (start, []) = some state) :
    ∃ kept done, Published start overlay kept done state ∧
      Disposed overlay overlay.pendingPages kept done := by
  have final := (Published.start overlay level.sound).pages level h (fun _ => id) level.distinct
    (fun page mem => level.unfiled _ (List.mem_map.mpr ⟨page, mem, rfl⟩)) (by simp)
  simpa using final

/-! ## Rows after the changes are applied -/

/-- A pending row becomes live; a row that was decided stays. -/
def settle (row : LinePointerState × Bytes) : LinePointerState × Bytes :=
  (if row.1 = .pending then .live else row.1, row.2)

theorem settle_settle (row : LinePointerState × Bytes) : settle (settle row) = settle row := by
  obtain ⟨state, bytes⟩ := row
  cases state <;> rfl

def kill (row : LinePointerState × Bytes) : LinePointerState × Bytes := (.dead, row.2)

/-- A step of a loop over tids that changes the row at its tid by `g`, where
    `p` holds, and nothing else that matters. -/
structure RowStep (f : RelationStorage → Tid → RelationStorage) (p : Tid → Prop) [DecidablePred p]
    (g : LinePointerState × Bytes → LinePointerState × Bytes) : Prop where
  row : ∀ relation tid other, (f relation tid).row other =
    if other = tid ∧ p tid then (relation.row other).map g else relation.row other
  sound : ∀ relation tid, relation.Sound → (f relation tid).Sound
  maps : ∀ relation tid, RelationStorage.SameMaps (f relation tid) relation
  physical : ∀ relation tid block, (f relation tid).physical block ↔ relation.physical block

namespace RowStep

variable {f : RelationStorage → Tid → RelationStorage} {p : Tid → Prop} [DecidablePred p]
  {g : LinePointerState × Bytes → LinePointerState × Bytes}

theorem foldl_row (step : RowStep f p g) (twice : ∀ row, g (g row) = g row) (tids : List Tid)
    (relation : RelationStorage) (tid : Tid) :
    (tids.foldl f relation).row tid =
      if tid ∈ tids ∧ p tid then (relation.row tid).map g else relation.row tid := by
  induction tids generalizing relation with
  | nil => simp
  | cons first rest ih =>
    rw [List.foldl_cons, ih, step.row]
    by_cases here : tid = first
    · subst here
      by_cases chosen : p tid
      · cases relation.row tid <;> simp [chosen, twice]
      · simp [chosen]
    · simp [here]

theorem foldl_sound (step : RowStep f p g) (tids : List Tid)
    (sound : relation.Sound) : (tids.foldl f relation).Sound := by
  induction tids generalizing relation with
  | nil => exact sound
  | cons first rest ih => exact ih (step.sound relation first sound)

theorem foldl_maps (step : RowStep f p g) (tids : List Tid) (relation : RelationStorage) :
    SameMaps (tids.foldl f relation) relation := by
  induction tids generalizing relation with
  | nil => exact .rfl'
  | cons first rest ih => exact (ih _).trans (step.maps relation first)

theorem foldl_physical (step : RowStep f p g) (tids : List Tid) {relation : RelationStorage}
    {block : Nat} : (tids.foldl f relation).physical block ↔ relation.physical block := by
  induction tids generalizing relation with
  | nil => rfl
  | cons first rest ih => exact ih.trans (step.physical relation first block)

end RowStep

variable (entries : List (Tid × Tid))

theorem rowStep_of_marked {f : RelationStorage → Tid → RelationStorage}
    {goes : LinePointerState → LinePointerState}
    (marked : ∀ relation tid, Marked relation tid goes (f relation tid)) :
    RowStep f (fun _ => True) (fun row => (goes row.1, row.2)) where
  row relation tid other := by simpa using (marked relation tid).row other
  sound relation tid := (marked relation tid).sound
  maps relation tid := (marked relation tid).maps
  physical relation tid _ := (marked relation tid).physical

theorem markLive_rowStep :
    RowStep (fun relation tid => (relation.markLive tid).1) (fun _ => True) settle :=
  rowStep_of_marked markLive_marked

theorem markDead_rowStep :
    RowStep (fun relation tid => (relation.markDead tid).1) (fun _ => True) kill :=
  rowStep_of_marked markDead_marked

theorem publishInvalidation_cases (overlay : RelationOverlay) (relation : RelationStorage) (tid : Tid) :
    (overlay.clearInsertShadowsInvalidation tid = true ∧
      publishInvalidation overlay relation tid = relation) ∨
    (overlay.clearInsertShadowsInvalidation tid = false ∧ ∃ xids cids,
      publishInvalidation overlay relation tid =
        { (relation.markDead tid).1 with rowDeleteXids := xids, rowDeleteCids := cids }) := by
  unfold publishInvalidation
  cases overlay.clearInsertShadowsInvalidation tid with
  | true => exact .inl ⟨rfl, rfl⟩
  | false => cases lookup overlay.invalidatedMetadata tid <;> exact .inr ⟨rfl, _, _, rfl⟩

theorem publishInvalidation_rowStep (overlay : RelationOverlay) :
    RowStep (publishInvalidation overlay)
      (fun tid => overlay.clearInsertShadowsInvalidation tid = false) kill where
  row relation tid other := by
    obtain ⟨shadowed, same⟩ | ⟨struck, _, _, same⟩ := publishInvalidation_cases overlay relation tid
    · simp [same, shadowed]
    · simp only [same, struck, and_true]
      exact (relation.markDead_marked tid).row other
  sound relation tid sound := by
    obtain ⟨-, same⟩ | ⟨-, _, _, same⟩ := publishInvalidation_cases overlay relation tid <;> rw [same]
    · exact sound
    · exact ((relation.markDead_marked tid).sound sound).congr rfl le_rfl rfl rfl
  maps relation tid := by
    obtain ⟨-, same⟩ | ⟨-, _, _, same⟩ := publishInvalidation_cases overlay relation tid <;> rw [same]
    · exact .rfl'
    · have dead := (relation.markDead_marked tid).maps
      exact ⟨dead.1, dead.2, dead.3, dead.4, dead.5, dead.6, dead.7, dead.8⟩
  physical relation tid block := by
    obtain ⟨-, same⟩ | ⟨-, _, _, same⟩ := publishInvalidation_cases overlay relation tid <;> rw [same]
    exact (relation.markDead_marked tid).physical

theorem foldl_hotRedirects_same (relation : RelationStorage) :
    SameRelation (entries.foldl
      (fun relation entry => relation.insertHotRedirect entry.1 entry.2) relation) relation := by
  induction entries generalizing relation with
  | nil => exact ⟨rfl, rfl, rfl, rfl⟩
  | cons entry rest ih =>
    exact (ih _).trans (insertHotRedirect_same relation entry.1 entry.2)

theorem foldl_hotRedirects_eq (relation : RelationStorage) :
    (entries.foldl (fun relation entry => relation.insertHotRedirect entry.1 entry.2)
      relation).hotRedirects = extend relation.hotRedirects entries := by
  induction entries generalizing relation with
  | nil => rfl
  | cons entry rest ih =>
    rw [List.foldl_cons, ih]
    rfl

theorem foldl_indexEntries_same (indexRelid : Nat) (key : IndexKey) (tids : List Tid)
    (relation : RelationStorage) :
    let indexed := tids.foldl (fun relation tid =>
      if (relation.tupleSlice tid false).isSome then relation.insertIndexEntry indexRelid key tid
      else relation) relation
    SameRelation indexed relation ∧ SameLinks indexed relation := by
  induction tids generalizing relation with
  | nil => exact ⟨⟨rfl, rfl, rfl, rfl⟩, .refl⟩
  | cons tid rest ih =>
    rw [List.foldl_cons]
    split
    · obtain ⟨same, links⟩ := ih (relation.insertIndexEntry indexRelid key tid)
      exact ⟨same.trans ⟨rfl, rfl, rfl, rfl⟩, links.trans ⟨rfl, rfl, rfl, rfl, rfl⟩⟩
    · exact ih relation

/-- Key entries touch neither rows nor redirects. -/
theorem publishKeys_same (overlay : RelationOverlay) (relation : RelationStorage) :
    SameRelation (publishKeys overlay relation) relation ∧
      SameLinks (publishKeys overlay relation) relation := by
  unfold publishKeys
  dsimp only
  generalize keyed : ({ relation with primaryKeyIndex := _ } : RelationStorage) = first
  have start : SameRelation first relation ∧ SameLinks first relation := by
    rw [← keyed]
    exact ⟨⟨rfl, rfl, rfl, rfl⟩, ⟨rfl, rfl, rfl, rfl, rfl⟩⟩
  clear keyed
  generalize overlay.indexInserts = entries
  induction entries generalizing first with
  | nil => exact start
  | cons entry rest ih =>
    rw [List.foldl_cons]
    apply ih
    obtain ⟨same, links⟩ := foldl_indexEntries_same entry.1.1 entry.1.2 entry.2 first
    exact ⟨same.trans start.1, links.trans start.2⟩

/-- The row at a tid once an overlay without pending pages is applied. -/
def appliedRow (overlay : RelationOverlay) (tid : Tid) (row : Option (LinePointerState × Bytes)) :
    Option (LinePointerState × Bytes) :=
  let inserted := if tid ∈ overlay.insertedTids then row.map settle else row
  if tid ∈ overlay.invalidatedTids ∧ overlay.clearInsertShadowsInvalidation tid = false then
    inserted.map kill
  else inserted

/-- The redirects of an applied overlay are added to those of the relation. -/
theorem publishChanges_links (overlay : RelationOverlay) (relation : RelationStorage) :
    ∃ marked, SameLinks marked relation ∧ SameLinks (publishChanges overlay relation)
      { overlay.hotRedirectInserts.foldl
          (fun relation entry => relation.insertHotRedirect entry.1 entry.2) marked with
        updateRedirects := extend (overlay.hotRedirectInserts.foldl
          (fun relation entry => relation.insertHotRedirect entry.1 entry.2) marked).updateRedirects
            overlay.updateRedirectInserts } := by
  have maps₁ := markLive_rowStep.foldl_maps overlay.insertedTids relation
  have maps₂ := (publishInvalidation_rowStep overlay).foldl_maps overlay.invalidatedTids
    (overlay.insertedTids.foldl (fun relation tid => (relation.markLive tid).1) relation)
  exact ⟨_, (maps₂.trans maps₁).links, (publishKeys_same overlay _).2⟩

/-- Rows change only as they are marked. -/
theorem publishChanges_same (overlay : RelationOverlay) (relation : RelationStorage) :
    SameRelation (publishChanges overlay relation)
      (overlay.invalidatedTids.foldl (publishInvalidation overlay)
        (overlay.insertedTids.foldl (fun relation tid => (relation.markLive tid).1) relation)) := by
  have redirected := foldl_hotRedirects_same overlay.hotRedirectInserts
    (overlay.invalidatedTids.foldl (publishInvalidation overlay)
      (overlay.insertedTids.foldl (fun relation tid => (relation.markLive tid).1) relation))
  exact (publishKeys_same overlay _).1.trans
    ⟨redirected.pages, redirected.nextBlock, redirected.liveTids, redirected.liveTupleCount⟩

/-- What applying an overlay does, all at once. -/
theorem publishChanges_spec (overlay : RelationOverlay) (relation : RelationStorage) :
    (∀ tid, (publishChanges overlay relation).row tid = appliedRow overlay tid (relation.row tid)) ∧
      (relation.Sound → (publishChanges overlay relation).Sound) ∧
      (publishChanges overlay relation).nextBlock = relation.nextBlock ∧
      (∀ block, (publishChanges overlay relation).physical block ↔ relation.physical block) ∧
      (publishChanges overlay relation).hotRedirects =
        extend relation.hotRedirects overlay.hotRedirectInserts := by
  have live := markLive_rowStep
  have dead := publishInvalidation_rowStep overlay
  have same := publishChanges_same overlay relation
  refine ⟨fun tid => ?_, fun sound => ?_, ?_, fun block => ?_, ?_⟩
  · rw [same.row, dead.foldl_row (fun _ => rfl), live.foldl_row settle_settle]
    simp [appliedRow]
  · have marked := dead.foldl_sound overlay.invalidatedTids (live.foldl_sound overlay.insertedTids sound)
    exact marked.congr same.pages same.nextBlock.ge same.liveTids same.liveTupleCount
  · rw [same.nextBlock, (dead.foldl_maps _ _).nextBlock, (live.foldl_maps _ _).nextBlock]
  · rw [physical, (page_congr same.pages).1]
    exact (dead.foldl_physical _).trans (live.foldl_physical _)
  · obtain ⟨marked, before, after⟩ := publishChanges_links overlay relation
    rw [after.hotRedirects, ← before.hotRedirects]
    exact foldl_hotRedirects_eq overlay.hotRedirectInserts marked

end Local

end FastPg.Storage
