import FastPg.Storage.Fresh

/-! # Tids along whole runs

Sessions take turns on a relation that is never cleared. The tids that their
inserts and updates return and that their commits assign are pairwise
different, and the pages of the sessions and of the relation stay apart below
the next free block. Rows keep their bytes until the end. Other relations may be
cleared and replaced meanwhile.
-/

namespace FastPg.Storage

open Transition List Option RelationOverlay Overlays

/-! ## One turn -/

namespace Local

variable {relation : RelationStorage} {overlays : Overlays} {here : Local} {tid : Tid}

/-- Levels that hold nothing have no unused tids of their own. -/
theorem Unused.of_idle (unused : Unused ⟨relation, overlays⟩ tid) (idle : Idle overlays) :
    relation.nextBlock ≤ tid.block ∨ (relation.physical tid.block ∧ relation.row tid = none) := by
  rcases unused with beyond | paged | ⟨own, -⟩
  · exact .inl beyond
  · exact .inr paged
  · rw [idle.blocks] at own
    cases own

theorem unused_push : Unused ⟨relation, {} :: overlays⟩ tid ↔ Unused ⟨relation, overlays⟩ tid := by
  have blocks : tid.block ∈ Overlays.blocks ({} :: overlays) ↔ tid.block ∈ Overlays.blocks overlays := by
    simp [Overlays.mem_blocks_cons, RelationOverlay.blocks, RelationOverlay.cleared]
  have held : Held ({} :: overlays) tid ↔ Held overlays tid := by
    simp [held_cons, pendingRow, pendingPage]
  unfold Unused
  rw [blocks, held]

theorem Unused.release {child parent : RelationOverlay} {outer : Overlays}
    (unused : Unused ⟨relation, parent.appendFrom child :: outer⟩ tid)
    (stack : StackSound relation (child :: parent :: outer))
    (uncleared : holdsClear (child :: parent :: outer) = false) :
    Unused ⟨relation, child :: parent :: outer⟩ tid :=
  unused.imp_right (Or.imp_right fun ⟨own, unheld⟩ =>
    ⟨(release_segment.1 _).mp own, fun held => unheld ((release_held stack uncleared).mpr held)⟩)

/-- The rows of a level that is rolled back stay in their pages, marked dead, and its own pages
    are gone for good. -/
theorem Unused.undo {top : RelationOverlay} {outer : Overlays}
    (unused : Unused ⟨rollbackOverlay relation top, outer⟩ tid)
    (stack : StackSound relation (top :: outer))
    (uncleared : holdsClear (top :: outer) = false) :
    Unused ⟨relation, top :: outer⟩ tid := by
  have free := (holdsClear_cons.mp uncleared).1
  have kills := (rollbackOverlay_spec stack.sound free).1
  rcases unused with beyond | ⟨paged, missing⟩ | ⟨own, unheld⟩
  · exact .inl (kills.frontier.trans beyond)
  · refine .inr (.inl ⟨(kills.physical _).mp paged, ?_⟩)
    cases found : relation.row tid with
    | none => rfl
    | some entry =>
      have kept := (kills.isSome tid).mpr (isSome_of_eq_some found)
      rw [missing] at kept
      cases kept
  · refine .inr (.inr ⟨mem_blocks_cons.mpr (.inr ⟨free, own⟩), fun held => ?_⟩)
    rcases held_cons.mp held with here | outside
    · obtain ⟨entry, found⟩ := isSome_iff_exists.mp here
      exact stack.1.apart free _ (mem_blocks_of_pendingRow found) own
    · exact unheld outside

theorem Unused.rollback (unused : Unused ⟨rollbackAll relation overlays, []⟩ tid)
    (stack : StackSound relation overlays) (uncleared : holdsClear overlays = false) :
    Unused ⟨relation, overlays⟩ tid := by
  induction overlays generalizing relation with
  | nil => exact unused
  | cons top outer ih =>
    have before := ih unused (rollbackOverlay_stack stack) (holdsClear_cons.mp uncleared).2
    exact before.undo stack uncleared

end Local

namespace View

variable {view : View} {sid : SessionId} {here : Local} {tid : Tid}

/-- Nothing was ever stored at the tid. -/
def Unused (view : View) (tid : Tid) : Prop := ∃ sid, (view.reach sid).Unused tid

/-- Sessions share the relation soundly, and none has cleared it. -/
structure Uncleared (view : View) : Prop where
  shared : Shared view
  levels : ∀ sid, Overlays.holdsClear (view.levels sid) = false

theorem reach_put : (view.put sid here).reach sid = here := by
  unfold reach
  rw [put_levels_self, put_relation]

/-- A turn of one session makes no tid unused, if it does not for that session. -/
theorem Unused.put (unused : (view.put sid here).Unused tid)
    (shrinks : here.Unused tid → (view.reach sid).Unused tid) : view.Unused tid := by
  obtain ⟨other, unused⟩ := unused
  by_cases same : other = sid
  · subst same
    rw [reach_put] at unused
    exact ⟨other, shrinks unused⟩
  · rcases unused with beyond | paged | own
    · exact ⟨sid, shrinks (.inl beyond)⟩
    · exact ⟨sid, shrinks (.inr (.inl paged))⟩
    · refine ⟨other, .inr (.inr ?_)⟩
      simpa [reach, put_levels_other view here same] using own

/-- What some session has stored is not unused for any. -/
theorem Uncleared.not_unused (uncleared : view.Uncleared) (sid : SessionId)
    (taken : (view.reach sid).Taken tid) : ¬ view.Unused tid := by
  rintro ⟨other, unused⟩
  have sound := (uncleared.shared.levels sid).sound
  rcases taken with row | held
  · obtain ⟨entry, found⟩ := isSome_iff_exists.mp row
    have paged := RelationStorage.physical_of_row found
    rcases unused with beyond | ⟨-, missing⟩ | ⟨own, -⟩
    · have below := sound.below _ paged
      exact absurd below (not_lt.mpr beyond)
    · cases missing.symm.trans found
    · exact ((uncleared.shared.levels other).unfiled own).1 paged
  · have inside := held.mem_blocks (uncleared.levels sid)
    obtain ⟨unfiled, below⟩ := (uncleared.shared.levels sid).unfiled inside
    rcases unused with beyond | ⟨paged, -⟩ | ⟨own, unheld⟩
    · exact absurd below (not_lt.mpr beyond)
    · exact unfiled paged
    · by_cases same : other = sid
      · subst same
        exact unheld held
      · exact uncleared.shared.apartBlocks other sid same _ own inside

end View

section Turns

variable {catalog : Catalog} {relid : Relid} {sid : SessionId} {call : Call} {view view' : View}
  {tid : Tid}

/-- No call but a clear makes a tid unused. -/
theorem Effect.unused (effect : Effect catalog relid sid call view view')
    (uncleared : view.Uncleared) (notClear : call ≠ .clear relid) (unused : view'.Unused tid) :
    view.Unused tid := by
  have stack := uncleared.shared.levels sid
  have free := uncleared.levels sid
  cases effect with
  | rest => exact unused
  | start => exact unused.put fun unused =>
    (unused.of_idle fun _ => mem_singleton.mp).imp_right .inl
  | row on _ =>
    have moves : Local.Moves (catalog relid) (view.reach sid) _ :=
      Call.onRelation_moves on notClear stack
    exact unused.put (moves.unused stack)
  | clear => exact absurd rfl notClear
  | push =>
    refine unused.put fun unused => ?_
    have started : (view.reach sid).ensureTransaction.Unused tid := by
      have open_ := Local.unused_push.mp unused
      unfold Local.Unused at open_ ⊢
      rwa [Local.ensureTransaction_relation]
    have moves : Local.Moves (catalog relid) (view.reach sid) _ := .single (.start _)
    exact moves.unused stack started
  | release levels =>
    rw [levels] at stack free
    refine unused.put fun unused => ?_
    have before := unused.release stack free
    rwa [← levels] at before
  | undo levels =>
    rw [levels] at stack free
    refine unused.put fun unused => ?_
    have before := unused.undo stack free
    rwa [← levels] at before
  | drop levels kept ends =>
    refine unused.put fun unused => ?_
    unfold View.reach
    rw [levels]
    rcases kept with rfl | ⟨rfl, rfl⟩
    · exact Local.unused_push.mpr unused
    · exact unused
  | commit committed kept ends =>
    refine unused.put fun unused => ?_
    refine (Local.commitAll_assigns stack free committed).shrinks tid (unused.of_idle ?_)
    rcases kept with rfl | rfl
    · exact fun _ mem => by cases mem
    · exact fun _ => mem_singleton.mp
  | rollback ends => exact unused.put fun unused => unused.rollback stack free

/-- No call but a clear leaves a cleared level. -/
theorem Effect.uncleared (effect : Effect catalog relid sid call view view')
    (uncleared : view.Uncleared) (notClear : call ≠ .clear relid) : view'.Uncleared := by
  refine ⟨effect.shared uncleared.shared (fun _ other _ => uncleared.levels other)
    fun clears => absurd clears notClear, fun other => ?_⟩
  have stack := uncleared.shared.levels sid
  have free := uncleared.levels sid
  have turn : ∀ here : Local, holdsClear here.overlays = false →
      holdsClear ((view.put sid here).levels other) = false := by
    intro here outcome
    by_cases same : other = sid
    · subst same
      rwa [View.put_levels_self]
    · rw [View.put_levels_other view here same]
      exact uncleared.levels other
  cases effect with
  | rest => exact uncleared.levels other
  | start => exact turn _ rfl
  | row on _ =>
    have moves : Local.Moves (catalog relid) (view.reach sid) _ :=
      Call.onRelation_moves on notClear stack
    exact turn _ ((Shared.reshaped_holdsClear (moves.writes stack).shape).trans free)
  | clear => exact absurd rfl notClear
  | push =>
    have writes : Writes (view.reach sid) _ := .start stack
    have started := (Shared.reshaped_holdsClear writes.shape).trans free
    exact turn _ (holdsClear_cons.mpr ⟨rfl, started⟩)
  | release levels =>
    rw [levels] at free
    exact turn _ (Local.release_uncleared free)
  | undo levels =>
    rw [levels] at free
    exact turn _ (holdsClear_cons.mp free).2
  | drop levels kept ends =>
    rw [levels] at free
    refine turn _ ?_
    rcases kept with rfl | ⟨rfl, rfl⟩
    · exact (holdsClear_cons.mp free).2
    · rfl
  | commit committed kept ends =>
    refine turn _ ?_
    rcases kept with rfl | rfl
    · rfl
    · rfl
  | rollback ends => exact turn _ rfl

end Turns

/-! ## What a request hands out -/

/-- The tid a call returns for a new row. -/
def Call.returned (catalog : Catalog) (here : Local) : Call → Option Tid
  | .insert relid input check metadata keyed =>
    (here.insert (catalog relid) input check metadata keyed).2
  | .update relid tid input check hot metadata =>
    (here.update (catalog relid) tid input check hot metadata).2
  | .updateHotIfPreserved relid tid input key metadata =>
    (here.updateHotIfPreserved (catalog relid) tid input key metadata).2.map Prod.fst
  | _ => none

/-- Whether a call publishes the levels of its session. -/
def Call.publishes (session : SessionStorage) : Call → Bool
  | .xactCommit => true
  | .xactBegin | .xactCommitIfImplicit => !session.commitEmptyImplicitTransaction.2
  | _ => false

/-- The relation a request clears. -/
def Request.clears (request : Request) : Option Relid :=
  match request.action with
  | .call (.clear relid) => some relid
  | .call _ => none
  | .replaceFrom dst _ => some dst

variable {catalog : Catalog} {call : Call} {state state' : StorageState}

theorem Call.returned_unused {relid : Relid} {f : Local → Local} {here : Local} {tid : Tid}
    (on : call.onRelation catalog = some (relid, f))
    (stack : StackSound here.relation here.overlays)
    (uncleared : holdsClear here.overlays = false)
    (returned : call.returned catalog here = some tid) : here.Unused tid ∧ (f here).Taken tid := by
  have outcome : ∀ {result : Local × Option Tid},
      Local.Outcome (catalog relid) (fun _ _ => True) here result → result.2 = some tid →
      here.Unused tid ∧ result.1.Taken tid := by
    rintro ⟨here', _⟩ outcome rfl
    exact outcome.unused stack uncleared
  cases call with
  | insert =>
    cases on
    exact outcome (Local.insert_outcome ..) returned
  | update =>
    cases on
    exact outcome (Local.update_outcome ..) returned
  | updateHotIfPreserved =>
    cases on
    exact outcome (Local.updateHotIfPreserved_outcome ..) returned
  | xactBegin | xactBeginImplicit | xactCommit | xactAbort | xactCommitIfImplicit
  | xactAbortIfImplicit | subxactBegin | subxactCommit | subxactAbort | clear | delete
  | recordInvalidateMetadata | recordPrimaryKey | recordPrimaryKeyEntry | recordIndexEntries
  | resolveTid | resolveUpdateTid | primaryKeyLookup | setMaxTuplesPerBlock => cases returned

/-- A call that changes a relation is a call on it. -/
theorem Call.changes_step {sid : SessionId} {relid : Relid} (changes : call.changes = some relid)
    (h : step catalog state ⟨sid, call⟩ = some state') :
    ∃ f, call.onRelation catalog = some (relid, f) ∧
      state'.view relid = (state.view relid).put sid (f ((state.view relid).reach sid)) := by
  have on : ∀ f, call.onRelation catalog = some (relid, f) →
      state' = state.putLocal sid relid (f (state.localView sid relid)) →
      ∃ f, call.onRelation catalog = some (relid, f) ∧
        state'.view relid = (state.view relid).put sid (f ((state.view relid).reach sid)) := by
    rintro f on rfl
    exact ⟨f, on, StorageState.view_putLocal_self ..⟩
  cases call with
  | clear | insert | update | updateHotIfPreserved | delete | recordPrimaryKey
  | recordPrimaryKeyEntry | recordIndexEntries =>
    cases changes
    cases h
    exact on _ rfl rfl
  | xactBegin | xactBeginImplicit | xactCommit | xactAbort | xactCommitIfImplicit
  | xactAbortIfImplicit | subxactBegin | subxactCommit | subxactAbort | recordInvalidateMetadata
  | resolveTid | resolveUpdateTid | primaryKeyLookup | setMaxTuplesPerBlock => cases changes

/-- A call that publishes commits every relation. -/
theorem Call.publishes_step {sid : SessionId}
    (publishes : call.publishes (state.sessions sid) = true)
    (h : step catalog state ⟨sid, call⟩ = some state') (relid : Relid) :
    ∃ relation', ((state.view relid).reach sid).commitAll = some relation' ∧
      (state'.view relid).relation = relation' := by
  have implicit : ∀ middle, state.xactCommitIfImplicit sid = some middle →
      (state.sessions sid).commitEmptyImplicitTransaction.2 = false →
      ∃ relation', ((state.view relid).reach sid).commitAll = some relation' ∧
        (middle.view relid).relation = relation' := by
    intro middle ended busy
    have kept : (state.sessions sid).commitEmptyImplicitTransaction.1 = state.sessions sid := by
      unfold SessionStorage.commitEmptyImplicitTransaction at busy ⊢
      split
      · rfl
      · split
        · rfl
        · split
          · simp_all
          · rfl
    unfold StorageState.xactCommitIfImplicit at ended
    dsimp only at ended
    rw [busy, kept, if_neg Bool.false_ne_true] at ended
    obtain ⟨relation', committed, viewed⟩ := StorageState.commitAll_spec ended relid
    rw [StorageState.view_setSession_same] at committed
    exact ⟨relation', committed, by rw [viewed]; rfl⟩
  cases call with
  | xactCommit =>
    obtain ⟨middle, done, rfl⟩ := map_eq_some_iff.mp h
    obtain ⟨relation', committed, viewed⟩ := StorageState.commitAll_spec done relid
    exact ⟨relation', committed, by rw [StorageState.view_setExplicit, viewed]; rfl⟩
  | xactCommitIfImplicit =>
    exact implicit state' h (by simpa [Call.publishes] using publishes)
  | xactBegin =>
    have busy : (state.sessions sid).commitEmptyImplicitTransaction.2 = false := by
      simpa [Call.publishes] using publishes
    simp only [step, StorageState.xactBegin] at h
    split at h
    · rename_i explicit
      simp [SessionStorage.commitEmptyImplicitTransaction, explicit] at busy
    · obtain ⟨middle, ended, rfl⟩ := map_eq_some_iff.mp h
      obtain ⟨relation', committed, viewed⟩ := implicit middle ended busy
      exact ⟨relation', committed, viewed⟩
  | xactBeginImplicit | xactAbort | xactAbortIfImplicit | subxactBegin | subxactCommit
  | subxactAbort | clear | insert | update | updateHotIfPreserved | delete
  | recordInvalidateMetadata | recordPrimaryKey | recordPrimaryKeyEntry | recordIndexEntries
  | resolveTid | resolveUpdateTid | primaryKeyLookup | setMaxTuplesPerBlock => cases publishes

namespace Engine

/-- The tids of a relation that a request hands out: the one an insert or an update returns, or
    those a commit assigns to the rows it moves. -/
def handedOut (catalog : Catalog) (relid : Relid) (engine : Engine) (request : Request) : List Tid :=
  let here := engine.storage.localView request.sid relid
  match request.action with
  | .call call =>
    if call.publishes (engine.storage.sessions request.sid) then here.assigned
    else if call.changes = some relid then (call.returned catalog here).toList
    else []
  | .replaceFrom _ _ => []

variable {catalog : Catalog} {relid : Relid} {engine engine' : Engine} {request : Request}

/-- What a relation sees of a request that does not clear it. -/
theorem step_effect_uncleared (uncleared : request.clears ≠ some relid)
    (taken : step catalog engine request = some engine') :
    ∃ call, call ≠ .clear relid ∧
      Effect catalog relid request.sid call (engine.storage.view relid) (engine'.storage.view relid) := by
  obtain ⟨sid, action⟩ := request
  cases action with
  | call call =>
    obtain ⟨storage, stepped, rfl⟩ := map_eq_some_iff.mp taken
    refine ⟨call, ?_, step_effect stepped relid⟩
    rintro rfl
    exact uncleared rfl
  | replaceFrom dst src =>
    cases taken
    rcases StorageState.replaceRelationFrom_view catalog engine.storage sid dst src relid with
      ⟨rfl, -⟩ | ⟨-, effect⟩
    · exact absurd rfl uncleared
    · exact ⟨.xactBeginImplicit, Call.noConfusion, effect⟩

theorem step_dispenses (sound : (engine.storage.view relid).Uncleared)
    (uncleared : request.clears ≠ some relid) (taken : step catalog engine request = some engine') :
    Dispenses (handedOut catalog relid engine request) (engine.storage.view relid).Unused
      (engine'.storage.view relid).Unused := by
  obtain ⟨call, notClear, effect⟩ := step_effect_uncleared uncleared taken
  have after := effect.uncleared sound notClear
  have shrinks := fun tid => @Effect.unused _ _ _ _ _ _ tid effect sound notClear
  obtain ⟨sid, action⟩ := request
  have stack := sound.shared.levels sid
  have free := sound.levels sid
  have nothing : Dispenses [] (engine.storage.view relid).Unused (engine'.storage.view relid).Unused :=
    ⟨shrinks, by simp, by simp, nodup_nil⟩
  cases action with
  | replaceFrom dst src => exact nothing
  | call call =>
    obtain ⟨storage, stepped, rfl⟩ := map_eq_some_iff.mp taken
    simp only [handedOut]
    split
    · rename_i publishes
      obtain ⟨relation', committed, relation⟩ := Call.publishes_step publishes stepped relid
      have assigns := Local.commitAll_assigns stack free committed
      refine ⟨shrinks, fun tid mem => ⟨sid, assigns.unused tid mem⟩, fun tid mem => ?_,
        assigns.distinct⟩
      refine after.not_unused sid (.inl ?_)
      change ((storage.view relid).relation.row tid).isSome = true
      rw [relation]
      exact assigns.taken tid mem
    · split
      · rename_i changes
        obtain ⟨f, on, viewed⟩ := Call.changes_step changes stepped
        cases returned : call.returned catalog (engine.storage.localView sid relid) with
        | none => exact nothing
        | some tid =>
          obtain ⟨unused, placed⟩ := Call.returned_unused on stack free returned
          refine ⟨shrinks, fun other mem => ?_, fun other mem => ?_, nodup_singleton _⟩
          · rw [mem_singleton.mp mem]
            exact ⟨sid, unused⟩
          · rw [mem_singleton.mp mem]
            refine after.not_unused sid ?_
            change ((storage.view relid).reach sid).Taken tid
            rw [viewed, View.reach_put]
            exact placed
      · exact nothing

end Engine

/-! ## Whole runs -/

namespace View

/-- The blocks of the pages a session keeps for itself. -/
def pendingBlocks (view : View) (sid : SessionId) : List Nat :=
  (view.levels sid).flatMap RelationOverlay.blocks

/-- The pages of the sessions and of the relation are pairwise different, and
    all of them are below the next free block. -/
structure BlocksApart (view : View) : Prop where
  distinct : ∀ sid, (view.pendingBlocks sid).Nodup
  apart : ∀ a b, a ≠ b → ∀ block ∈ view.pendingBlocks a, block ∉ view.pendingBlocks b
  unfiled : ∀ sid, ∀ block ∈ view.pendingBlocks sid, ¬ view.relation.physical block
  below : ∀ sid, ∀ block ∈ view.pendingBlocks sid, block < view.relation.nextBlock
  filedBelow : ∀ block, view.relation.physical block → block < view.relation.nextBlock

theorem blocks_nodup {relation : RelationStorage} {overlays : Overlays}
    (stack : StackSound relation overlays) (uncleared : holdsClear overlays = false) :
    (overlays.flatMap RelationOverlay.blocks).Nodup := by
  induction overlays with
  | nil => exact nodup_nil
  | cons top outer ih =>
    obtain ⟨topFree, outerFree⟩ := holdsClear_cons.mp uncleared
    rw [flatMap_cons]
    refine nodup_append.mpr ⟨stack.1.distinct, ih (stack.outer topFree) outerFree, ?_⟩
    rintro block own _ outside rfl
    refine stack.1.apart topFree block own ?_
    rwa [Overlays.blocks, Overlays.segment_of_uncleared outerFree]

theorem Uncleared.blocksApart {view : View} (uncleared : view.Uncleared) : view.BlocksApart := by
  have blocks : ∀ sid, view.pendingBlocks sid = Overlays.blocks (view.levels sid) := fun sid => by
    rw [Overlays.blocks, Overlays.segment_of_uncleared (uncleared.levels sid), pendingBlocks]
  constructor
  · exact fun sid => blocks_nodup (uncleared.shared.levels sid) (uncleared.levels sid)
  · intro a b ne block
    rw [blocks, blocks]
    exact uncleared.shared.apartBlocks a b ne block
  · intro sid block mem
    rw [blocks] at mem
    exact ((uncleared.shared.levels sid).unfiled mem).1
  · intro sid block mem
    rw [blocks] at mem
    exact ((uncleared.shared.levels sid).unfiled mem).2
  · exact (uncleared.shared.levels 0).sound.below

end View

namespace Engine

/-- While a relation is not cleared, its tids are handed out once, and the pages of the sessions
    and of the relation stay apart below the next free block. -/
theorem tids_handed_out_once (catalog : Catalog) (relid : Relid) {requests : List Request}
    (uncleared : ∀ request ∈ requests, request.clears ≠ some relid) :
    (outputs (step catalog) (handedOut catalog relid) .initial requests).Nodup ∧
      ∀ engine, run (step catalog) .initial requests = some engine →
        (engine.storage.view relid).BlocksApart := by
  have start : (StorageState.initial.view relid).Uncleared := ⟨initial_shared relid, fun _ => rfl⟩
  have keeps : ∀ (engine : Engine) (request : Request) (engine' : Engine),
      (engine.storage.view relid).Uncleared → request.clears ≠ some relid →
      step catalog engine request = some engine' → (engine'.storage.view relid).Uncleared := by
    intro engine request engine' sound allowed taken
    obtain ⟨call, notClear, effect⟩ := step_effect_uncleared allowed taken
    exact effect.uncleared sound notClear
  refine ⟨?_, fun engine ran => ?_⟩
  · exact (outputs_nodup keeps (fun _ _ _ => step_dispenses) start uncleared).1
  · exact (run_keeps keeps start uncleared ran).blocksApart

/-- Two sessions on a relation with a unique index: the first commit keeps its page, a savepoint is
    rolled back, another relation is cleared, the second commit moves its row, and a row is
    updated. -/
def twoSessions : List Request :=
  [⟨1, .call (.insert 7 [] .skip none false)⟩, ⟨2, .call (.insert 7 [] .skip none false)⟩,
    ⟨1, .call .xactCommit⟩, ⟨2, .call .subxactBegin⟩, ⟨2, .call (.insert 7 [] .skip none false)⟩,
    ⟨2, .call .subxactAbort⟩, ⟨2, .call (.clear 8)⟩, ⟨2, .call .xactCommit⟩,
    ⟨1, .call (.update 7 ⟨0, 1⟩ [] .skip false none)⟩]

theorem tids_handed_out_once_twoSessions :
    outputs (step fun _ => ⟨[⟨9, false, false, []⟩], none⟩)
        (handedOut (fun _ => ⟨[⟨9, false, false, []⟩], none⟩) 7) .initial twoSessions =
      [⟨0, 1⟩, ⟨1, 1⟩, ⟨2, 1⟩, ⟨0, 2⟩, ⟨3, 1⟩] ∧
    (∀ request ∈ twoSessions, request.clears ≠ some 7) ∧
    ∀ engine, run (step fun _ => ⟨[⟨9, false, false, []⟩], none⟩) .initial twoSessions = some engine →
      (engine.storage.view 7).BlocksApart := by
  have uncleared : ∀ request ∈ twoSessions, request.clears ≠ some 7 := by
    simp [twoSessions, Request.clears]
  exact ⟨by decide +kernel, uncleared, (tids_handed_out_once _ 7 uncleared).2⟩

end Engine

/-! ## What becomes of a row -/

namespace RelationStorage

variable {before after later : RelationStorage}

/-- Rows keep their bytes. A pending row is published or dies, a live one can
    only die, and a dead one stays dead. -/
def Ages (before after : RelationStorage) : Prop :=
  ∀ tid state bytes, before.row tid = some (state, bytes) → ∃ state',
    after.row tid = some (state', bytes) ∧ (state' = state ∨ state = .pending ∨ state' = .dead)

theorem Ages.of_rows
    (rows : ∀ tid entry, before.row tid = some entry → after.row tid = some entry) :
    before.Ages after := fun tid state _ found => ⟨state, rows tid _ found, .inl rfl⟩

theorem Ages.refl : before.Ages before := .of_rows fun _ _ => id

theorem Ages.trans (first : before.Ages after) (second : after.Ages later) : before.Ages later := by
  intro tid state bytes found
  obtain ⟨state', found', aged⟩ := first tid state bytes found
  obtain ⟨state'', found'', aged'⟩ := second tid state' bytes found'
  exact ⟨state'', found'', by grind⟩

theorem Ages.of_kills (kills : Kills before after) : before.Ages after := by
  intro tid state bytes found
  rcases kills.rows tid with same | killed
  · exact ⟨state, same.trans found, .inl rfl⟩
  · exact ⟨.dead, by rw [killed, found]; rfl, .inr (.inr rfl)⟩

end RelationStorage

open RelationStorage (Ages)

namespace Local

variable {catalog : RelationCatalog} {here here' : Local} {relation' : RelationStorage}

theorem Stamps.ages (stamps : Stamps here here') : here.relation.Ages here'.relation := by
  cases stamps with
  | own => exact .refl
  | shared stamped => exact .of_rows fun tid _ found => (congrFun stamped.same.1 tid).trans found

theorem Move.ages (move : Move catalog here here')
    (stack : StackSound here.relation here.overlays) :
    here.relation.Ages here'.relation := by
  cases move with
  | append _ tuple =>
    cases appended : here.appendPendingTuple catalog tuple
    obtain ⟨top, top', outer, -, -, places⟩ := appendPendingTuple_places stack appended
    apply Ages.of_rows
    intro tid entry found
    rcases places.stored with ⟨rows, -⟩ | ⟨-, rows⟩
    · exact (rows tid).trans found
    · have free : _ ≠ some tid := fun placed => by cases (places.free tid placed).1.symm.trans found
      rw [rows, if_neg free, found]
  | stampInsert _ tid xid cid own =>
    have stamped := (here.setInsertMetadata_stamps tid xid cid).ages
    rwa [modifyTop_relation] at stamped
  | stampXmax _ tid xmax => exact (here.setRowXmax_stamps tid xmax).ages
  | compress _ levels tid =>
    have same := (here.relation.resolveTidRedirectCompress_same levels tid).row
    exact .of_rows fun _ _ found => same ▸ found
  | compressUpdate _ levels tid =>
    have same := (here.relation.resolveUpdateRedirectCompress_same levels tid).row
    exact .of_rows fun _ _ found => same ▸ found
  | limit => exact .of_rows fun _ _ found => found
  | start | appendOwn | invalidate | redirect | note =>
    exact .of_rows fun _ _ found => by simpa using found

theorem Moves.ages (moves : Moves catalog here here')
    (stack : StackSound here.relation here.overlays) : here.relation.Ages here'.relation := by
  induction moves with
  | refl => exact .refl
  | tail before move ih => exact ih.trans (move.ages (Moves.writes before stack).stack)

theorem rollbackAll_ages {relation : RelationStorage} {overlays : Overlays}
    (stack : StackSound relation overlays) (uncleared : holdsClear overlays = false) :
    relation.Ages (rollbackAll relation overlays) := by
  induction overlays generalizing relation with
  | nil => exact .refl
  | cons top outer ih =>
    obtain ⟨free, outside⟩ := holdsClear_cons.mp uncleared
    have first := Ages.of_kills (rollbackOverlay_spec stack.sound free).1
    exact first.trans (ih (rollbackOverlay_stack stack) outside)

theorem commitAll_ages (stack : StackSound here.relation here.overlays)
    (committed : here.commitAll = some relation') : here.relation.Ages relation' := by
  obtain ⟨relation, overlays⟩ := here
  cases overlays with
  | nil =>
    cases committed
    exact .refl
  | cons top rest =>
    have level := (mergeAll_stack stack).1
    unfold commitAll commitOverlay at committed
    obtain ⟨⟨relation₁, remaps⟩, pages, rest⟩ := Option.bind_eq_some_iff.mp committed
    cases rest
    obtain ⟨kept, done, published, -⟩ := published_of_commit level pages
    obtain ⟨rows, -⟩ := publishChanges_spec ((mergeAll top _).remapTids remaps) relation₁
    intro tid state bytes found
    rw [rows, published.old tid _ found, appliedRow]
    cases state <;> simp only [Option.map_some] <;> grind [kill, settle]

end Local

theorem Effect.ages {catalog : Catalog} {relid : Relid} {sid : SessionId} {call : Call}
    {view view' : View} (effect : Effect catalog relid sid call view view')
    (uncleared : view.Uncleared) (notClear : call ≠ .clear relid) :
    view.relation.Ages view'.relation := by
  have stack := uncleared.shared.levels sid
  have free := uncleared.levels sid
  cases effect with
  | row on _ =>
    have moves : Local.Moves (catalog relid) (view.reach sid) _ :=
      Call.onRelation_moves on notClear stack
    exact moves.ages stack
  | clear => exact absurd rfl notClear
  | undo levels =>
    rw [levels] at stack free
    exact .of_kills (Local.rollbackOverlay_spec stack.sound (holdsClear_cons.mp free).1).1
  | commit committed => exact Local.commitAll_ages stack committed
  | rollback => exact Local.rollbackAll_ages stack free
  | rest | start | push | release | drop => exact .refl

/-- While a relation is not cleared, its rows keep their bytes, whatever the sessions
    do. Committed rows can only die, dead ones are never live again, and the live
    ones are listed and counted. -/
theorem Engine.stored_rows_age {catalog : Catalog} {relid : Relid} {first later : List Request}
    (uncleared : ∀ request ∈ first ++ later, request.clears ≠ some relid) {engine engine' : Engine}
    (ran : run (step catalog) .initial first = some engine)
    (went : run (step catalog) engine later = some engine') :
    (engine.storage.view relid).relation.Ages (engine'.storage.view relid).relation ∧
      (engine'.storage.view relid).relation.Sound := by
  let Aged (start after : Engine) : Prop := (after.storage.view relid).Uncleared ∧
    (start.storage.view relid).relation.Ages (after.storage.view relid).relation
  have keeps : ∀ start before (request : Request) after, Aged start before →
      request.clears ≠ some relid → step catalog before request = some after →
        Aged start after := by
    intro start before request after aged allowed taken
    obtain ⟨call, notClear, effect⟩ := step_effect_uncleared allowed taken
    exact ⟨effect.uncleared aged.1 notClear, aged.2.trans (effect.ages aged.1 notClear)⟩
  obtain ⟨here, there⟩ := forall_mem_append.mp uncleared
  have start : Aged .initial .initial := ⟨⟨initial_shared relid, fun _ => rfl⟩, .refl⟩
  have middle := run_keeps (keeps .initial) start here ran
  obtain ⟨shared, ages⟩ := run_keeps (keeps engine) ⟨middle.1, .refl⟩ there went
  exact ⟨ages, (shared.shared.levels 0).sound⟩

/-- The row of the first session is committed before the others are written. -/
theorem Engine.stored_rows_age_twoSessions :
    ∃ engine engine' : Engine, (engine.storage.view 7).relation.liveTids.elems = [⟨0, 1⟩] ∧
      (engine.storage.view 7).relation.Ages (engine'.storage.view 7).relation ∧
      (engine'.storage.view 7).relation.Sound := by
  have checked : (run (step bareCatalog) .initial (twoSessions.take 3)).any (fun engine =>
      (engine.storage.view 7).relation.liveTids.elems = [⟨0, 1⟩] &&
        (run (step bareCatalog) engine (twoSessions.drop 3)).isSome) = true := by decide +kernel
  obtain ⟨engine, ran, facts⟩ := (Option.any_eq_true _ _).mp checked
  obtain ⟨live, rest⟩ := Bool.and_eq_true_iff.mp facts
  obtain ⟨engine', went⟩ := isSome_iff_exists.mp rest
  exact ⟨engine, engine', of_decide_eq_true live,
    stored_rows_age (by simp [twoSessions, Request.clears]) ran went⟩

end FastPg.Storage
