import FastPg.Storage.State
import FastPg.Storage.Transactions

/-! # Sessions that share a relation

Several sessions work on one relation, each through its own levels. Their own
pages and rows stay apart, and while one of them holds an uncommitted clear the
others hold nothing. Every operation of a session keeps this, provided that
clears are taken and respected as an exclusive lock would have it.
-/

namespace FastPg.Storage

open Assoc Option RelationOverlay Overlays
open List hiding insert lookup

/-- A stack in which no level changed the relation. -/
def Idle (overlays : Overlays) : Prop := ∀ overlay ∈ overlays, overlay = {}

namespace Idle

variable {overlays : Overlays} {relation : RelationStorage}

theorem blocks (idle : Idle overlays) : blocks overlays = [] := by
  induction overlays with
  | nil => rfl
  | cons overlay outer ih =>
    rw [idle overlay (mem_cons_self ..)]
    exact ih fun other mem => idle other (.tail _ mem)

theorem inserted (idle : Idle overlays) : inserted overlays = [] := by
  induction overlays with
  | nil => rfl
  | cons overlay outer ih =>
    rw [idle overlay (mem_cons_self ..)]
    exact ih fun other mem => idle other (.tail _ mem)

theorem holdsClear (idle : Idle overlays) :
    holdsClear overlays = false := by
  unfold Overlays.holdsClear
  rw [List.any_eq_false]
  intro overlay mem
  rw [idle overlay mem]
  decide

theorem emptyLevel (sound : relation.Sound) (outer : Overlays) :
    LevelSound relation {} outer :=
  ⟨sound, by simp [RelationOverlay.blocks], by simp [RelationOverlay.blocks],
    by simp [RelationOverlay.blocks], by simp [RelationOverlay.pendingRow,
    RelationOverlay.pendingPage], by simp, by simp [RelationOverlay.blocks], fun _ => rfl⟩

theorem stack (idle : Idle overlays) (sound : relation.Sound) : StackSound relation overlays := by
  induction overlays with
  | nil => exact sound
  | cons overlay outer ih =>
    rw [idle overlay (mem_cons_self ..)]
    exact ⟨emptyLevel sound outer, ih fun other mem => idle other (.tail _ mem)⟩

end Idle

/-- One relation with the levels of every session. -/
structure View where
  relation : RelationStorage
  levels : SessionId → Overlays

namespace View

/-- What a session reaches. -/
def reach (view : View) (sid : SessionId) : Local := ⟨view.relation, view.levels sid⟩

/-- Store what a session left. -/
def put (view : View) (sid : SessionId) (here : Local) : View :=
  ⟨here.relation, fun other => if other = sid then here.overlays else view.levels other⟩

@[simp] theorem put_relation (view : View) (sid : SessionId) (here : Local) :
    (view.put sid here).relation = here.relation := rfl

@[simp] theorem put_levels_self (view : View) (sid : SessionId) (here : Local) :
    (view.put sid here).levels sid = here.overlays := by
  simp [put]

variable (view : View)

theorem put_levels_other {sid other : SessionId} (here : Local) (ne : other ≠ sid) :
    (view.put sid here).levels other = view.levels other := by
  simp [put, ne]

theorem put_self (sid : SessionId) : view.put sid (view.reach sid) = view := by
  unfold put reach
  congr 1
  funext other
  by_cases same : other = sid
  · simp [same]
  · simp [same]

theorem put_put (sid : SessionId) (here here' : Local) :
    (view.put sid here).put sid here' = view.put sid here' := by
  unfold put
  congr 1
  funext other
  by_cases same : other = sid
  · simp [same]
  · simp [same]

end View

structure Shared (view : View) : Prop where
  levels : ∀ sid, StackSound view.relation (view.levels sid)
  apartBlocks : ∀ a b, a ≠ b → ∀ block ∈ Overlays.blocks (view.levels a),
    block ∉ Overlays.blocks (view.levels b)
  apartRows : ∀ a b, a ≠ b → ∀ tid ∈ Overlays.inserted (view.levels a),
    tid ∉ Overlays.inserted (view.levels b)
  exclusive : ∀ a b, a ≠ b → Overlays.holdsClear (view.levels a) = true → Idle (view.levels b)

namespace Shared

variable {view : View} {sid : SessionId} {here : Local} {overlays : Overlays}

/-- What has to be known of the outcome of a session's turn. -/
theorem put (shared : Shared view) (stack : StackSound here.relation here.overlays)
    (others : ∀ b, b ≠ sid → StackSound here.relation (view.levels b))
    (blocks : ∀ b, b ≠ sid → ∀ block ∈ blocks here.overlays,
      block ∉ blocks (view.levels b))
    (rows : ∀ b, b ≠ sid → ∀ tid ∈ inserted here.overlays,
      tid ∉ inserted (view.levels b))
    (holds : holdsClear here.overlays = true → ∀ b, b ≠ sid → Idle (view.levels b))
    (yields : ∀ a, a ≠ sid → holdsClear (view.levels a) = true → Idle here.overlays) :
    Shared (view.put sid here) where
  levels := by
    intro other
    by_cases own : other = sid
    · subst own
      simpa using stack
    · rw [View.put_levels_other view here own]
      exact others other own
  apartBlocks := by
    intro a b ne block
    by_cases ownA : a = sid
    · subst ownA
      rw [View.put_levels_self, View.put_levels_other view here (Ne.symm ne)]
      exact blocks b (Ne.symm ne) block
    · rw [View.put_levels_other view here ownA]
      by_cases ownB : b = sid
      · subst ownB
        rw [View.put_levels_self]
        exact fun mem own => blocks a ownA block own mem
      · rw [View.put_levels_other view here ownB]
        exact shared.apartBlocks a b ne block
  apartRows := by
    intro a b ne tid
    by_cases ownA : a = sid
    · subst ownA
      rw [View.put_levels_self, View.put_levels_other view here (Ne.symm ne)]
      exact rows b (Ne.symm ne) tid
    · rw [View.put_levels_other view here ownA]
      by_cases ownB : b = sid
      · subst ownB
        rw [View.put_levels_self]
        exact fun mem own => rows a ownA tid own mem
      · rw [View.put_levels_other view here ownB]
        exact shared.apartRows a b ne tid
  exclusive := by
    intro a b ne
    by_cases ownA : a = sid
    · subst ownA
      rw [View.put_levels_self, View.put_levels_other view here (Ne.symm ne)]
      exact fun held => holds held b (Ne.symm ne)
    · rw [View.put_levels_other view here ownA]
      by_cases ownB : b = sid
      · subst ownB
        rw [View.put_levels_self]
        exact yields a ownA
      · rw [View.put_levels_other view here ownB]
        exact shared.exclusive a b ne

/-- A turn that leaves no rows and pages of its own behind. -/
theorem put_idle (shared : Shared view) (idle : Idle here.overlays) (sound : here.relation.Sound)
    (others : ∀ b, b ≠ sid → StackSound here.relation (view.levels b)) :
    Shared (view.put sid here) := by
  apply shared.put (idle.stack sound) others
  · intro b _ block mem
    rw [idle.blocks] at mem
    cases mem
  · intro b _ tid mem
    rw [idle.inserted] at mem
    cases mem
  · intro held
    rw [idle.holdsClear] at held
    cases held
  · exact fun _ _ _ => idle

theorem reshaped_holdsClear {overlays' : Overlays} (shape : Reshaped overlays overlays') :
    holdsClear overlays' = holdsClear overlays := by
  rcases shape with rfl | ⟨rfl, top, rfl, uncleared⟩ | ⟨top, top', outer, rfl, rfl, kept⟩
  · rfl
  · simp [holdsClear, cleared, uncleared]
  · simp [holdsClear, cleared, kept]

/-- Row operations. -/
theorem writes (shared : Shared view) (writes : Writes (view.reach sid) here)
    (yields : ∀ a, a ≠ sid → holdsClear (view.levels a) = true → Idle here.overlays) :
    Shared (view.put sid here) := by
  have blocksApart : ∀ b, b ≠ sid → ∀ block ∈ blocks here.overlays,
      block ∉ blocks (view.levels b) := by
    intro b ne block own other
    cases writes.blocks block own with
    | inl old => exact shared.apartBlocks sid b (Ne.symm ne) block old other
    | inr fresh =>
      have below := ((shared.levels b).unfiled other).2
      exact absurd below (not_lt.mpr fresh)
  apply shared.put writes.stack (fun b _ => (shared.levels b).grows writes.grows) blocksApart
  · intro b ne tid own other
    cases writes.inserted tid own with
    | inl old => exact shared.apartRows sid b (Ne.symm ne) tid old other
    | inr missing =>
      cases (shared.levels b).placed other with
      | inr stored =>
        have present := stored.1
        change ((view.reach sid).relation.row tid).isSome = true at present
        rw [missing] at present
        cases present
      | inl theirs =>
        obtain ⟨unfiled, below⟩ := (shared.levels b).unfiled theirs
        cases writes.stack.placed own with
        | inl ours => exact blocksApart b ne _ ours theirs
        | inr stored =>
          obtain ⟨entry, found⟩ := isSome_iff_exists.mp stored.1
          cases writes.grows.filed _ (RelationStorage.physical_of_row found) with
          | inl old => exact unfiled old
          | inr fresh => exact absurd below (not_lt.mpr fresh)
  · intro held b ne
    rw [reshaped_holdsClear writes.shape] at held
    exact shared.exclusive sid b (Ne.symm ne) held
  · exact yields

/-- A clear inside a transaction, taken while the others hold nothing. -/
theorem clear (shared : Shared view) {top : RelationOverlay} {outer : Overlays}
    (catalog : RelationCatalog) (preserveTidSpace : Bool) (levels : view.levels sid = top :: outer)
    (alone : ∀ b, b ≠ sid → Idle (view.levels b)) :
    Shared (view.put sid ((view.reach sid).clear catalog preserveTidSpace)) := by
  have stack := shared.levels sid
  rw [levels] at stack
  obtain ⟨top', cleared, stack', saved, blocks, rows⟩ := Local.clear_spec catalog preserveTidSpace stack
  have here : view.reach sid = ⟨view.relation, top :: outer⟩ := by simp [View.reach, levels]
  rw [here, cleared]
  have held : top'.cleared = true := by simp [RelationOverlay.cleared, saved]
  apply shared.put stack' fun b ne => (alone b ne).stack stack'.sound
  · intro b ne block mem
    rw [(alone b ne).blocks]
    exact not_mem_nil
  · intro b ne tid mem
    rw [(alone b ne).inserted]
    exact not_mem_nil
  · exact fun _ => alone
  · intro a ne other
    rw [(alone a ne).holdsClear] at other
    cases other

/-- A clear without a transaction, taken while the others hold nothing. -/
theorem clearAtOnce (shared : Shared view) (catalog : RelationCatalog) (preserveTidSpace : Bool)
    (levels : view.levels sid = []) (alone : ∀ b, b ≠ sid → Idle (view.levels b)) :
    Shared (view.put sid ((view.reach sid).clear catalog preserveTidSpace)) := by
  have here : (view.reach sid).clear catalog preserveTidSpace =
      ⟨Local.replacement view.relation preserveTidSpace, []⟩ := by
    simp [View.reach, levels, Local.clear]
  rw [here]
  have sound := Local.replacement_sound view.relation preserveTidSpace
  exact shared.put_idle (by simp [Idle]) sound fun b ne => (alone b ne).stack sound

/-- A turn that moves rows between the levels of one session. -/
theorem relevel (shared : Shared view) (stack : StackSound view.relation overlays)
    (blocks : ∀ block, block ∈ blocks overlays → block ∈ blocks (view.levels sid))
    (rows : ∀ tid, tid ∈ inserted overlays → tid ∈ inserted (view.levels sid))
    (holds : holdsClear overlays = true → holdsClear (view.levels sid) = true)
    (idle : Idle (view.levels sid) → Idle overlays) :
    Shared (view.put sid ⟨view.relation, overlays⟩) := by
  apply shared.put stack fun b _ => shared.levels b
  · exact fun b ne block mem =>
      shared.apartBlocks sid b (Ne.symm ne) block (blocks block mem)
  · exact fun b ne tid mem =>
      shared.apartRows sid b (Ne.symm ne) tid (rows tid mem)
  · exact fun held b ne => shared.exclusive sid b (Ne.symm ne) (holds held)
  · exact fun a ne held => idle (shared.exclusive a sid ne held)

theorem push (shared : Shared view) :
    Shared (view.put sid ⟨view.relation, {} :: view.levels sid⟩) := by
  have stack := shared.levels sid
  apply shared.relevel (show StackSound view.relation ({} :: view.levels sid) from
    ⟨Idle.emptyLevel stack.sound _, stack⟩)
  · intro block mem
    simpa [Overlays.mem_blocks_cons, RelationOverlay.blocks, RelationOverlay.cleared] using mem
  · intro tid mem
    simpa [mem_inserted_cons, cleared] using mem
  · intro held
    simpa [holdsClear, cleared] using held
  · intro idle overlay mem
    cases mem_cons.mp mem with
    | inl same => exact same
    | inr outside => exact idle overlay outside

theorem drop (shared : Shared view) {outer : Overlays} (levels : view.levels sid = {} :: outer) :
    Shared (view.put sid ⟨view.relation, outer⟩) := by
  have stack := shared.levels sid
  rw [levels] at stack
  apply shared.relevel (stack.outer rfl)
  · intro block mem
    rw [levels]
    exact mem_blocks_cons.mpr (.inr ⟨rfl, mem⟩)
  · intro tid mem
    rw [levels]
    exact mem_inserted_cons.mpr (.inr ⟨rfl, mem⟩)
  · intro held
    rw [levels]
    simpa [holdsClear, cleared] using held
  · intro idle overlay mem
    exact idle overlay (levels ▸ mem_cons_of_mem _ mem)

theorem release (shared : Shared view) {child parent : RelationOverlay} {outer : Overlays}
    (levels : view.levels sid = child :: parent :: outer) :
    Shared (view.put sid ⟨view.relation, parent.appendFrom child :: outer⟩) := by
  have stack := shared.levels sid
  rw [levels] at stack
  obtain ⟨blocks, rows⟩ := @Local.release_segment parent child outer
  apply shared.relevel (Local.release_stack stack)
  · intro block mem
    rw [levels]
    exact (blocks block).mp mem
  · intro tid mem
    rw [levels]
    exact (rows tid).mp mem
  · intro held
    rw [levels]
    unfold holdsClear at held ⊢
    simp only [any_cons, Bool.or_eq_true, cleared,
      appendFrom_clearedRelation, isSome_or, isSome_map] at held ⊢
    tauto
  · intro idle
    have childEmpty := idle child (levels ▸ mem_cons_self ..)
    have parentEmpty := idle parent (levels ▸ mem_cons_of_mem _ (mem_cons_self ..))
    intro overlay mem
    cases mem_cons.mp mem with
    | inl same =>
      rw [same, childEmpty, parentEmpty]
      exact TransactionOverlay.appendFrom_default {}
    | inr outside =>
      exact idle overlay (levels ▸ mem_cons_of_mem _ (mem_cons_of_mem _ outside))

/-- Rolling back a level, inside a transaction. -/
theorem undo (shared : Shared view) {top : RelationOverlay} {outer : Overlays}
    (levels : view.levels sid = top :: outer) :
    Shared (view.put sid ⟨Local.rollbackOverlay view.relation top, outer⟩) := by
  have stack := shared.levels sid
  rw [levels] at stack
  have stack' := Local.rollbackOverlay_stack stack
  cases cleared : top.cleared with
  | true =>
    -- The others hold nothing, so any sound relation suits them.
    have alone : ∀ b, b ≠ sid → Idle (view.levels b) := fun b ne =>
      shared.exclusive sid b (Ne.symm ne) (by simp [levels, holdsClear, cleared])
    apply shared.put stack' fun b ne => (alone b ne).stack stack'.sound
    · intro b ne block _
      rw [(alone b ne).blocks]
      exact not_mem_nil
    · intro b ne tid _
      rw [(alone b ne).inserted]
      exact not_mem_nil
    · exact fun _ => alone
    · intro a ne held
      rw [(alone a ne).holdsClear] at held
      cases held
  | false =>
    have kills := (Local.rollbackOverlay_spec stack.sound cleared).1
    apply shared.put stack' fun b _ => (shared.levels b).keeps (kills.keeps (shared.levels b))
    · intro b ne block mem
      refine shared.apartBlocks sid b (Ne.symm ne) block ?_
      rw [levels]
      exact mem_blocks_cons.mpr (.inr ⟨cleared, mem⟩)
    · intro b ne tid mem
      refine shared.apartRows sid b (Ne.symm ne) tid ?_
      rw [levels]
      exact mem_inserted_cons.mpr (.inr ⟨cleared, mem⟩)
    · intro held b ne
      refine shared.exclusive sid b (Ne.symm ne) ?_
      rw [levels]
      simp only [holdsClear, any_cons, Bool.or_eq_true] at held ⊢
      exact .inr held
    · intro a ne held overlay mem
      exact shared.exclusive a sid ne held overlay (levels ▸ mem_cons_of_mem _ mem)

/-- Rolling back every level. -/
theorem rollback (shared : Shared view) :
    Shared (view.put sid ⟨Local.rollbackAll view.relation (view.levels sid), []⟩) := by
  have unwind : ∀ overlays, ∀ view : View, Shared view → view.levels sid = overlays →
      Shared (view.put sid ⟨Local.rollbackAll view.relation overlays, []⟩) := by
    intro overlays
    induction overlays with
    | nil =>
      intro view shared levels
      exact shared.put_idle (by simp [Idle]) (shared.levels sid).sound fun b _ => shared.levels b
    | cons top outer ih =>
      intro view shared levels
      have next := ih _ (shared.undo levels) (by simp)
      rw [View.put_put] at next
      exact next
  exact unwind _ view shared rfl

/-- A commit. -/
theorem commit (shared : Shared view) {relation' : RelationStorage}
    (h : (view.reach sid).commitAll = some relation') :
    Shared (view.put sid ⟨relation', []⟩) := by
  have commits := Local.commitAll_commits (shared.levels sid) h
  apply shared.put_idle (by simp [Idle]) commits.sound
  intro b ne
  have stack := shared.levels b
  refine stack.keeps ⟨commits.sound, commits.frontier, commits.rows, ?_, ?_⟩
  · intro block mem paged
    obtain ⟨unfiled, below⟩ := stack.unfiled mem
    rcases commits.filed block paged with old | beyond | theirs
    · exact unfiled old
    · exact absurd below (not_lt.mpr beyond)
    · exact shared.apartBlocks sid b (Ne.symm ne) block theirs mem
  · intro tid mem bytes live
    rcases commits.live tid bytes live with old | theirs | ⟨missing, place⟩
    · exact ⟨bytes, old⟩
    · exact absurd mem (shared.apartRows sid b (Ne.symm ne) tid theirs)
    · cases stack.placed mem with
      | inr stored =>
        have present := stored.1
        change (view.relation.row tid) = none at missing
        rw [missing] at present
        cases present
      | inl own =>
        obtain ⟨unfiled, below⟩ := stack.unfiled own
        rcases place with old | beyond | theirs
        · exact absurd old unfiled
        · exact absurd below (not_lt.mpr beyond)
        · exact absurd own (shared.apartBlocks sid b (Ne.symm ne) _ theirs)

end Shared

end FastPg.Storage
