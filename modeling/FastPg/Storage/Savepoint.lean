import FastPg.Storage.Engine

/-! # Rolling back to a savepoint

Between the begin and the abort of a subtransaction a session works in levels
of its own: it changes rows, clears and replaces relations, and opens further
levels that it releases or rolls back. Underneath, the relation it started from
is kept: as it is, as long as no level has cleared it, and otherwise in the
outermost level that did. What is kept is, to the outer levels, the relation at
the begin, because the pages are restored to checkpoints taken since.
-/

namespace FastPg.Storage

open Assoc Redirect Transition Option RelationOverlay Overlays
open List hiding insert lookup

/-! ## Checkpoints -/

/-- The checkpoints a level took since: they reach past every row of their page. -/
def Marks (relation : RelationStorage) (top top' : RelationOverlay) : Prop :=
  ∀ entry ∈ top'.pageCheckpoints, entry ∈ top.pageCheckpoints ∨
    ∀ tid : Tid, tid.block = entry.1 → (relation.row tid).isSome → tid.offset ≤ entry.2.lineCount

namespace Marks

variable {relation relation' : RelationStorage} {top top' top'' : RelationOverlay}

theorem same (kept : top'.pageCheckpoints = top.pageCheckpoints) : Marks relation top top' :=
  fun _ mem => .inl (kept ▸ mem)

theorem trans (first : Marks relation top top') (second : Marks relation' top' top'')
    (grows : Grows relation relation') : Marks relation top top'' := by
  intro entry mem
  rcases second entry mem with old | covers
  · exact first entry old
  · exact .inr fun tid here stored => covers tid here (grows.rows tid stored)

end Marks

theorem mem_insertNew {κ ν : Type*} [DecidableEq κ] {entries : List (κ × ν)} {key : κ} {value : ν}
    {entry : κ × ν} (mem : entry ∈ insertNew entries key value) :
    entry ∈ entries ∨ entry = (key, value) := by
  unfold insertNew at mem
  split at mem
  · exact .inl mem
  · simpa using mem

theorem mem_foldl_insertNew {κ ν : Type*} [DecidableEq κ] {base more : List (κ × ν)} {entry : κ × ν}
    (mem : entry ∈ more.foldl (fun acc entry => insertNew acc entry.1 entry.2) base) :
    entry ∈ base ∨ entry ∈ more := by
  induction more generalizing base with
  | nil => exact .inl mem
  | cons first rest ih =>
    rcases ih mem with early | late
    · rcases mem_insertNew early with old | rfl
      · exact .inl old
      · exact .inr (.head _)
    · exact .inr (.tail _ late)

namespace Local

variable {relation relation' : RelationStorage} {top top' : RelationOverlay} {outer : Overlays}
  {tuple : Bytes} {result : Option Tid} {catalog : RelationCatalog}

theorem appendExisting_checkpoints (top : RelationOverlay) (tuple : Bytes) (limit : Option Nat) :
    (top.appendPendingTupleToExistingPage tuple limit).1.pageCheckpoints = top.pageCheckpoints := by
  unfold appendPendingTupleToExistingPage
  dsimp only
  split <;> rfl

theorem appendNew_checkpoints (top : RelationOverlay) (page : Page) (tuple : Bytes) :
    (top.appendPendingTupleToNewPage page tuple).1.pageCheckpoints = top.pageCheckpoints := by
  unfold appendPendingTupleToNewPage
  split <;> rfl

theorem AppendStep.marks (step : AppendStep tuple result relation top relation' top') :
    Marks relation top top' := by
  have claimed : ∀ level : RelationOverlay,
      (level.claim result).pageCheckpoints = level.pageCheckpoints := by
    intro level
    cases result <;> rfl
  cases step with
  | target => exact .same rfl
  | shared => exact .same (claimed _)
  | @existing _ _ filled _ appended =>
    have kept := appendExisting_checkpoints top tuple relation.maxTuplesPerBlock
    rw [appended] at kept
    exact .same ((claimed filled).trans kept)
  | @reserved _ _ _ filled _ block _ appended =>
    have kept := appendNew_checkpoints top (Page.new block tuple.length) tuple
    rw [appended] at kept
    exact .same ((claimed filled).trans kept)
  | page paged =>
    -- The page holds every row the relation has in its block.
    intro entry mem
    rcases mem_insertNew mem with old | rfl
    · exact .inl old
    · refine .inr fun tid here stored => ?_
      rw [RelationStorage.row, here, RelationStorage.page_block paged, paged] at stored
      exact (Page.row_isSome_iff.mp stored).2

theorem AppendSteps.marks (steps : AppendSteps tuple result relation top relation' top')
    (stack : StackSound relation (top :: outer)) : Marks relation top top' := by
  induction steps with
  | nil => exact .same rfl
  | cons first _ ih =>
    have writes := first.writes stack
    exact first.marks.trans (ih writes.stack) writes.grows
  | last step => exact step.marks

theorem modifyPendingPage_checkpoints {tid : Tid} {f : Page → Page}
    (h : top.modifyPendingPage tid f = some top') : top'.pageCheckpoints = top.pageCheckpoints := by
  obtain ⟨_, -, rfl⟩ := map_eq_some_iff.mp h
  rfl

/-- A move of a session changes its innermost level only, and what it
    checkpoints there covers the rows there were. -/
theorem Move.marks {here' : Local} (move : Move catalog ⟨relation, top :: outer⟩ here')
    (stack : StackSound relation (top :: outer)) :
    ∃ top', here'.overlays = top' :: outer ∧ Marks relation top top' := by
  cases move with
  | start | compress | compressUpdate | limit => exact ⟨top, rfl, .same rfl⟩
  | append _ tuple =>
    obtain ⟨_, top', _, levels, levels', steps⟩ :=
      appendPendingTuple_steps (Prod.eta (appendPendingTuple ⟨relation, top :: outer⟩ catalog tuple)).symm
    cases levels
    exact ⟨top', levels', steps.marks stack⟩
  | appendOwn appended => exact ⟨_, rfl, (AppendStep.existing appended).marks⟩
  | stampInsert _ tid xid cid =>
    unfold setInsertMetadata
    dsimp only
    split
    next stamped =>
      exact ⟨_, rfl, .same (@modifyPendingPage_checkpoints (top.setInsertCid tid cid) _ tid _ stamped)⟩
    next => exact ⟨_, rfl, .same rfl⟩
  | stampXmax _ tid xmax =>
    unfold setRowXmax
    dsimp only
    split
    next stamped => exact ⟨_, rfl, .same (modifyPendingPage_checkpoints stamped)⟩
    next => exact ⟨_, rfl, .same rfl⟩
  | invalidate => exact ⟨_, rfl, .same rfl⟩
  | redirect =>
    refine ⟨_, rfl, .same ?_⟩
    unfold insertHotRedirect
    split <;> rfl
  | note _ f same => exact ⟨_, rfl, .same (same top).pageCheckpoints⟩

theorem Moves.marks {here' : Local} (moves : Moves catalog ⟨relation, top :: outer⟩ here')
    (stack : StackSound relation (top :: outer)) :
    ∃ top', here'.overlays = top' :: outer ∧ Marks relation top top' := by
  induction moves with
  | refl => exact ⟨top, rfl, .same rfl⟩
  | @tail middle last before move ih =>
    obtain ⟨top₁, levels, first⟩ := ih
    have writes := Moves.writes before stack
    obtain ⟨relation₁, overlays⟩ := middle
    cases levels
    obtain ⟨top₂, levels, second⟩ := move.marks writes.stack
    exact ⟨top₂, levels, first.trans second writes.grows⟩

end Local

/-! ## Restoring pages -/

/-- A row that the outer levels read: a live row, or one of their own. -/
def Kept (start : RelationStorage) (outer : Overlays) (tid : Tid) : Prop :=
  (∃ bytes, start.row tid = some (.live, bytes)) ∨
    (tid ∈ Overlays.inserted outer ∧ (start.row tid).isSome)

/-- The checkpoints of a level reach past every row the outer levels read. -/
def Covers (start : RelationStorage) (outer : Overlays) (level : RelationOverlay) : Prop :=
  ∀ entry ∈ level.pageCheckpoints, ∀ tid : Tid, tid.block = entry.1 → Kept start outer tid →
    tid.offset ≤ entry.2.lineCount

variable {start relation : RelationStorage} {outer : Overlays} {top' : RelationOverlay}

theorem Unseen.kept (unseen : Unseen outer start relation) {tid : Tid} (kept : Kept start outer tid) :
    (start.row tid).isSome ∧ relation.row tid = start.row tid := by
  rcases kept with ⟨bytes, live⟩ | ⟨own, stored⟩
  · exact ⟨by simp [live], by rw [live, (unseen.live tid bytes).mpr live]⟩
  · exact ⟨stored, unseen.own tid own stored⟩

theorem Marks.covers {top : RelationOverlay} (marks : Marks relation top top')
    (unseen : Unseen outer start relation) (covers : Covers start outer top) :
    Covers start outer top' := by
  intro entry mem tid here kept
  rcases marks entry mem with old | reaches
  · exact covers entry old tid here kept
  · obtain ⟨stored, same⟩ := unseen.kept kept
    exact reaches tid here (same ▸ stored)

namespace RelationOverlay

theorem restoreRelationSnapshot_row {overlay : RelationOverlay}
    {tid : Tid}
    (inside : ∀ entry ∈ overlay.pageCheckpoints, tid.block = entry.1 →
      tid.offset ≤ entry.2.lineCount) :
    (overlay.restoreRelationSnapshot relation).row tid = relation.row tid := by
  have row := (restorePages_spec overlay.pageCheckpoints relation).1 tid
  have kept : (restorePages overlay.pageCheckpoints relation).row tid = relation.row tid := by
    rw [row, if_neg]
    rintro ⟨entry, mem, here, past⟩
    exact absurd (inside entry mem here) (by omega)
  unfold restoreRelationSnapshot
  cases overlay.relationCheckpoint <;> exact kept

theorem restorePages_entries (checkpoints : List (Nat × PageCheckpoint))
    (relation : RelationStorage) :
    let restored := restorePages checkpoints relation
    restored.hotRedirects = relation.hotRedirects ∧
      restored.updateRedirects = relation.updateRedirects ∧
      restored.primaryKeyIndex = relation.primaryKeyIndex ∧ restored.indexes = relation.indexes := by
  induction checkpoints generalizing relation with
  | nil => exact ⟨rfl, rfl, rfl, rfl⟩
  | cons entry rest ih => exact ih (restorePage relation entry)

theorem restoreRelationSnapshot_entries (overlay : RelationOverlay) (relation : RelationStorage) :
    let restored := overlay.restoreRelationSnapshot relation
    restored.hotRedirects = relation.hotRedirects ∧
      restored.updateRedirects = relation.updateRedirects ∧
      restored.primaryKeyIndex = relation.primaryKeyIndex ∧ restored.indexes = relation.indexes := by
  have entries := restorePages_entries overlay.pageCheckpoints relation
  unfold restoreRelationSnapshot
  cases overlay.relationCheckpoint <;> exact entries

end RelationOverlay

/-- Restoring the pages of a level takes nothing from the outer levels. -/
theorem Unseen.restore {level : RelationOverlay} (unseen : Unseen outer start relation)
    (checkpointed : level.relationCheckpoint = none → level.pageCheckpoints = [])
    (covers : Covers start outer level) :
    Unseen outer start (level.restoreRelationSnapshot relation) := by
  have kills := level.restoreRelationSnapshot_kills unseen.sound checkpointed
  obtain ⟨redirects, updates, keys, indexes⟩ := level.restoreRelationSnapshot_entries relation
  have rows : ∀ tid, Kept start outer tid →
      (level.restoreRelationSnapshot relation).row tid = start.row tid := by
    intro tid kept
    rw [restoreRelationSnapshot_row fun entry mem here =>
      covers entry mem tid here kept]
    exact (unseen.kept kept).2
  refine ⟨kills.sound, fun tid bytes => ⟨fun live => ?_, fun live => ?_⟩, fun tid own stored => ?_,
    redirects ▸ unseen.redirects, updates ▸ unseen.updates, keys.trans unseen.keys,
    indexes.trans unseen.indexes⟩
  · exact (unseen.live tid bytes).mp (kills.live live)
  · rw [rows tid (.inl ⟨bytes, live⟩), live]
  · exact rows tid (.inr ⟨own, stored⟩)

/-! ## The levels of a subtransaction -/

/-- As long as no level from there outwards has cleared the relation, the
    checkpoints of a level are of the relation at the begin. -/
def CoversAll (start : RelationStorage) (outer : Overlays) : Overlays → Prop
  | [] => True
  | level :: rest =>
    (Overlays.Uncleared (level :: rest) → Covers start outer level) ∧ CoversAll start outer rest

/-- The levels a session has opened since the relation was `start` and its
    levels `outer`, with the relation and its cached row count by now. -/
structure Backed (start : RelationStorage) (outer : Overlays) (count : Nat)
    (relation : RelationStorage) (inner : Overlays) (count' : Nat) : Prop where
  sound : start.Sound
  stack : StackSound relation (inner ++ outer)
  orderly : Overlays.Orderly (inner ++ outer)
  base : Unseen outer start (baseRelation relation inner)
  covers : CoversAll start outer inner
  counted : Overlays.Uncleared inner → count' = count ∨ count' = start.liveTupleCount

variable {rest : Overlays}

theorem Overlays.uncleared_cons {top : RelationOverlay} :
    Uncleared (top :: rest) ↔ top.clearedRelation = none ∧ Uncleared rest := by
  simp [Uncleared, cleared]

theorem Overlays.uncleared_or_held (overlays : Overlays) :
    Uncleared overlays ∨ holdsClear overlays = true := by
  cases held : holdsClear overlays with
  | true => exact .inr rfl
  | false => exact .inl (uncleared_of_holdsClear held)

/-- Under a clear the relation is kept, whatever is done on top of it. -/
theorem baseRelation_top {relation' : RelationStorage} {top : RelationOverlay}
    (cleared : top'.clearedRelation = top.clearedRelation)
    (held : holdsClear (top :: rest) = true) :
    baseRelation relation' (top' :: rest) = baseRelation relation (top :: rest) := by
  rw [baseRelation, baseRelation, cleared]
  cases saved : top.clearedRelation with
  | some snapshot => rfl
  | none =>
    refine baseRelation_held ?_ _ _
    simpa [Overlays.holdsClear, RelationOverlay.cleared, saved] using held

theorem Reshaped.top {top : RelationOverlay} (shape : Reshaped (top :: rest) (top' :: rest)) :
    top'.clearedRelation = top.clearedRelation := by
  rcases shape with same | ⟨nothing, -⟩ | ⟨a, b, _, first, second, cleared⟩
  · cases same
    rfl
  · cases nothing
  · cases first
    cases second
    exact cleared

theorem Overlays.inserted_append {inner : Overlays} (uncleared : Uncleared inner)
    {tid : Tid} (own : tid ∈ inserted outer) :
    tid ∈ inserted (inner ++ outer) := by
  induction inner with
  | nil => exact own
  | cons level rest ih =>
    exact mem_inserted_cons.mpr (.inr ⟨uncleared.head, ih uncleared.tail⟩)

namespace Backed

variable {start relation relation' : RelationStorage} {outer rest : Overlays} {count count' : Nat}
  {top top' : RelationOverlay}

theorem moves {catalog : RelationCatalog} {here : Local}
    (backed : Backed start outer count relation (top :: rest) count')
    (moves : Local.Moves catalog ⟨relation, top :: (rest ++ outer)⟩ here) :
    ∃ top', here.overlays = top' :: (rest ++ outer) ∧
      Backed start outer count here.relation (top' :: rest) count' := by
  have stack : StackSound relation (top :: (rest ++ outer)) := backed.stack
  have writes := moves.writes stack
  obtain ⟨top', levels, marks⟩ := moves.marks stack
  have shape := writes.shape
  rw [levels] at shape
  have cleared : top'.clearedRelation = top.clearedRelation := shape.top
  have uncleared : Uncleared (top' :: rest) ↔ Uncleared (top :: rest) := by
    rw [uncleared_cons, uncleared_cons, cleared]
  have unseen := moves.unseen stack outer
  refine ⟨top', levels, backed.sound, ?_, ?_, ?_, ⟨fun plain => ?_, backed.covers.2⟩,
    fun plain => backed.counted (uncleared.mp plain)⟩
  · rw [cons_append, ← levels]
    exact writes.stack
  · rw [cons_append, ← levels]
    exact moves.orderly stack backed.orderly
  · rcases uncleared_or_held (top :: rest) with plain | held
    · have base := backed.base
      rw [baseRelation_uncleared plain] at base
      rw [baseRelation_uncleared (uncleared.mpr plain)]
      exact base.trans unseen
    · rw [baseRelation_top cleared held]
      exact backed.base
  · have plain' := uncleared.mp plain
    have base := backed.base
    rw [baseRelation_uncleared plain'] at base
    exact marks.covers base (backed.covers.1 plain')

theorem push (backed : Backed start outer count relation rest count') :
    Backed start outer count relation ({} :: rest) count' where
  sound := backed.sound
  stack := ⟨Idle.emptyLevel backed.stack.sound _, backed.stack⟩
  orderly := backed.orderly.push
  base := backed.base
  covers := ⟨fun _ => by simp [Covers], backed.covers⟩
  counted := fun plain => backed.counted plain.tail

theorem clear (backed : Backed start outer count relation (top :: rest) count')
    (catalog : RelationCatalog) (preserveTidSpace : Bool) :
    ∃ top', Local.clear ⟨relation, top :: (rest ++ outer)⟩ catalog preserveTidSpace =
        ⟨Local.replacement relation preserveTidSpace, top' :: (rest ++ outer)⟩ ∧
      Backed start outer count (Local.replacement relation preserveTidSpace) (top' :: rest) count' := by
  have before : StackSound relation (top :: (rest ++ outer)) := backed.stack
  obtain ⟨top', cleared, stack, saved, -⟩ := Local.clear_spec catalog preserveTidSpace before
  have orderly := @Local.clear_orderly catalog preserveTidSpace ⟨relation, top :: (rest ++ outer)⟩
    before backed.orderly
  rw [cleared] at orderly
  have held : ∀ more, ¬ Uncleared (top' :: more) := by
    intro more plain
    rw [uncleared_cons, saved] at plain
    cases plain.1
  refine ⟨top', cleared, backed.sound, stack, orderly, ?_, ⟨fun plain => absurd plain (held _), backed.covers.2⟩,
    fun plain => absurd plain (held _)⟩
  -- The level saves the relation; what was saved before stays.
  rw [baseRelation, saved, getD_some]
  have base := backed.base
  rw [baseRelation] at base
  cases older : top.clearedRelation with
  | some snapshot =>
    rw [older] at base
    exact base
  | none =>
    rw [older, getD_none] at base
    rw [getD_none]
    rcases uncleared_or_held rest with plain | busy
    · rw [baseRelation_uncleared plain] at base ⊢
      exact base.restore backed.stack.1.checkpointed
        (backed.covers.1 (uncleared_cons.mpr ⟨older, plain⟩))
    · rw [baseRelation_held busy _ relation]
      exact base

theorem release {child parent : RelationOverlay}
    (backed : Backed start outer count relation (child :: parent :: rest) count') :
    Backed start outer count relation (parent.appendFrom child :: rest) count' := by
  have merged := parent.appendFrom_clearedRelation child
  have uncleared : Uncleared (parent.appendFrom child :: rest) →
      Uncleared (child :: parent :: rest) := by
    intro plain
    rw [uncleared_cons, merged, or_eq_none_iff, map_eq_none_iff] at plain
    exact uncleared_cons.mpr ⟨plain.1.2, uncleared_cons.mpr ⟨plain.1.1, plain.2⟩⟩
  refine ⟨backed.sound, Local.release_stack backed.stack, backed.orderly.release, ?_, ⟨fun plain => ?_,
    backed.covers.2.2⟩, fun plain => backed.counted (uncleared plain)⟩
  · have base := backed.base
    rw [baseRelation, baseRelation] at base
    rw [baseRelation, merged]
    cases outside : parent.clearedRelation with
    | some snapshot =>
      rw [outside] at base
      exact base
    | none =>
      rw [outside, getD_none] at base
      rw [none_or]
      cases inside : child.clearedRelation with
      | none =>
        rw [inside] at base
        exact base
      | some snapshot =>
        rw [inside, getD_some] at base
        rw [map_some, getD_some]
        rcases uncleared_or_held rest with plain | busy
        · rw [baseRelation_uncleared plain] at base ⊢
          exact base.restore backed.stack.2.1.checkpointed
            (backed.covers.2.1 (uncleared_cons.mpr ⟨outside, plain⟩))
        · rw [baseRelation_held busy _ snapshot]
          exact base
  · have plain' := uncleared plain
    obtain ⟨-, -, -, -, pages⟩ := @appendFrom_of_uncleared parent child plain'.head
    intro entry mem
    rw [pages] at mem
    rcases mem_foldl_insertNew mem with outside | inside
    · exact backed.covers.2.1 plain'.tail entry outside
    · exact backed.covers.1 plain' entry inside

theorem undo (backed : Backed start outer count relation (top :: rest) count') :
    Backed start outer count (Local.rollbackOverlay relation top) rest
      (Local.rollbackCount relation [top] count') := by
  have base : Unseen outer start (baseRelation (Local.rollbackOverlay relation top) rest) := by
    have base := backed.base
    rw [baseRelation] at base
    cases cleared : top.clearedRelation with
    | some snapshot =>
      rw [cleared] at base
      rw [Local.rollbackOverlay, cleared]
      exact base
    | none =>
      rw [cleared, getD_none] at base
      rcases uncleared_or_held rest with plain | busy
      · rw [baseRelation_uncleared plain] at base ⊢
        have uncleared : top.cleared = false := by simp [RelationOverlay.cleared, cleared]
        exact base.trans (Local.rollbackOverlay_unseen backed.stack uncleared fun tid own mine =>
          backed.orderly.2.1 uncleared tid own (inserted_append plain mine))
      · rw [baseRelation_held busy _ relation]
        exact base
  refine ⟨backed.sound, Local.rollbackOverlay_stack backed.stack, backed.orderly.2.2, base, backed.covers.2,
    fun plain => ?_⟩
  rw [baseRelation_uncleared plain] at base
  rw [Local.rollbackCount, Local.rollbackCount]
  split
  · rw [base.sound.counted, base.liveTids backed.sound, ← backed.sound.counted]
    exact .inr rfl
  · next kept =>
    rw [Bool.or_eq_true, not_or] at kept
    exact backed.counted (uncleared_cons.mpr ⟨by simpa [cleared] using kept.2,
      plain⟩)

end Backed

/-! ## Whole subtransactions -/

/-- What a session does to a relation, with savepoints that it releases or rolls
    back, and to its cached row count. -/
inductive Span : Local × Nat → Local × Nat → Prop where
  | done {start : Local × Nat} : Span start start
  | moves {start : Local × Nat} {catalog : RelationCatalog} {here here' : Local} {count : Nat}
      (before : Span start (here, count)) (moves : Local.Moves catalog here here') :
      Span start (here', count)
  | clear {start : Local × Nat} {here : Local} {count : Nat} (before : Span start (here, count))
      (catalog : RelationCatalog) (preserveTidSpace : Bool) :
      Span start (here.clear catalog preserveTidSpace, count)
  | released {start : Local × Nat} {here : Local} {relation : RelationStorage}
      {child parent : RelationOverlay} {outer : Overlays} {count count' : Nat}
      (before : Span start (here, count))
      (inside : Span (⟨here.relation, {} :: here.overlays⟩, count)
        (⟨relation, child :: parent :: outer⟩, count')) :
      Span start (⟨relation, parent.appendFrom child :: outer⟩, count')
  | undone {start : Local × Nat} {here : Local} {relation : RelationStorage}
      {child : RelationOverlay} {outer : Overlays} {count count' : Nat}
      (before : Span start (here, count))
      (inside : Span (⟨here.relation, {} :: here.overlays⟩, count)
        (⟨relation, child :: outer⟩, count')) :
      Span start (⟨Local.rollbackOverlay relation child, outer⟩,
        Local.rollbackCount relation [child] count')

namespace Span

theorem trans {a b c : Local × Nat} (first : Span a b) (second : Span b c) : Span a c := by
  induction second with
  | done => exact first
  | moves _ moves ih => exact .moves (ih first) moves
  | clear _ catalog preserveTidSpace ih => exact .clear (ih first) catalog preserveTidSpace
  | released _ inside ih => exact .released (ih first) inside
  | undone _ inside ih => exact .undone (ih first) inside

/-- Savepoints are balanced, and the levels stay well formed. -/
theorem stack {before after : Local × Nat} (span : Span before after)
    (busy : before.1.overlays ≠ []) (stack : StackSound before.1.relation before.1.overlays) :
    StackSound after.1.relation after.1.overlays ∧
      after.1.overlays.length = before.1.overlays.length := by
  induction span with
  | done => exact ⟨stack, rfl⟩
  | moves prior moves ih =>
    obtain ⟨middle, length⟩ := ih busy stack
    have writes := moves.writes middle
    refine ⟨writes.stack, ?_⟩
    rcases writes.shape.length with same | ⟨nothing, -⟩
    · exact same.trans length
    · rw [nothing] at length
      exact absurd (eq_nil_of_length_eq_zero length.symm) busy
  | clear prior catalog preserveTidSpace ih =>
    obtain ⟨middle, length⟩ := ih busy stack
    exact ⟨Local.clear_stack _ middle catalog preserveTidSpace,
      (Local.clear_length _ catalog preserveTidSpace).trans length⟩
  | released prior inside ih nested =>
    obtain ⟨middle, length⟩ := ih busy stack
    obtain ⟨last, depth⟩ := nested (by simp) ⟨Idle.emptyLevel middle.sound _, middle⟩
    refine ⟨Local.release_stack last, length ▸ ?_⟩
    simp only [length_cons] at depth ⊢
    omega
  | undone prior inside ih nested =>
    obtain ⟨middle, length⟩ := ih busy stack
    obtain ⟨last, depth⟩ := nested (by simp) ⟨Idle.emptyLevel middle.sound _, middle⟩
    refine ⟨Local.rollbackOverlay_stack last, length ▸ ?_⟩
    simpa using depth

/-- The relation a subtransaction started from is kept under all it does. -/
theorem backed {start : RelationStorage} {top : RelationOverlay} {rest outer : Overlays} {count : Nat}
    {before after : Local × Nat} (span : Span before after)
    (levels : before.1.overlays = top :: (rest ++ outer))
    (backed : Backed start outer count before.1.relation (top :: rest) before.2) :
    ∃ top' rest', rest'.length = rest.length ∧ after.1.overlays = top' :: (rest' ++ outer) ∧
      Backed start outer count after.1.relation (top' :: rest') after.2 := by
  induction span generalizing top rest with
  | done => exact ⟨top, rest, rfl, levels, backed⟩
  | @moves _ catalog here here' _ prior moves ih =>
    obtain ⟨top₁, rest₁, length, middle, backed₁⟩ := ih levels backed
    obtain ⟨relation, overlays⟩ := here
    cases middle
    obtain ⟨top₂, levels₂, backed₂⟩ := backed₁.moves moves
    exact ⟨top₂, rest₁, length, levels₂, backed₂⟩
  | @clear _ here _ prior catalog preserveTidSpace ih =>
    obtain ⟨top₁, rest₁, length, middle, backed₁⟩ := ih levels backed
    obtain ⟨relation, overlays⟩ := here
    subst middle
    obtain ⟨top₂, cleared, backed₂⟩ := backed₁.clear catalog preserveTidSpace
    rw [cleared]
    exact ⟨top₂, rest₁, length, rfl, backed₂⟩
  | released prior inside ih nested =>
    obtain ⟨top₁, rest₁, length, middle, backed₁⟩ := ih levels backed
    obtain ⟨child, inner, depth, last, backed₂⟩ := @nested {} (top₁ :: rest₁)
      (congrArg _ middle) backed₁.push
    -- The nested block ends at its own depth: a parent stands below.
    obtain ⟨parent, rest₂, rfl⟩ := exists_cons_of_length_eq_add_one depth
    cases last
    exact ⟨_, rest₂, (Nat.succ.inj depth).trans length, rfl, backed₂.release⟩
  | undone prior inside ih nested =>
    obtain ⟨top₁, rest₁, length, middle, backed₁⟩ := ih levels backed
    obtain ⟨child, inner, depth, last, backed₂⟩ := @nested {} (top₁ :: rest₁)
      (congrArg _ middle) backed₁.push
    obtain ⟨parent, rest₂, rfl⟩ := exists_cons_of_length_eq_add_one depth
    cases last
    exact ⟨parent, rest₂, (Nat.succ.inj depth).trans length, rfl, backed₂.undo⟩

end Span

end FastPg.Storage
