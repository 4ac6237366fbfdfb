import FastPg.Storage.Close
import FastPg.Storage.Rollback

/-! # Shortcuts

Two places where the storage takes a shorter way: a session with one level is
read without walking the stack, and an implicit transaction whose innermost
level holds nothing is ended without a commit. The first way answers as the walk
does. The second one forgets the levels below the one it looks at.
-/

namespace FastPg.Storage

open Assoc Redirect Transition Option RelationOverlay Overlays
open List hiding insert lookup

/-! ## A session with one level -/

namespace Alike

variable {a b c : Overlays} (levels : Overlays)

theorem trans (first : Alike a b) (second : Alike b c) : Alike a c where
  redirect := second.redirect.trans first.redirect
  update := second.update.trans first.update
  deltas := second.deltas.trans first.deltas
  clear := second.clear.trans first.clear
  own := second.own.trans first.own
  cid := second.cid.trans first.cid
  struck := fun before => (second.struck before).trans (first.struck before)
  pending := second.pending.trans first.pending
  rows := fun tid => (second.rows tid).trans (first.rows tid)

/-- A level that holds nothing is not seen on top of others, -/
theorem above : Alike levels ({} :: levels) := by
  refine ⟨?_, ?_, ?_, ?_, ?_, ?_, fun before => ?_, ?_, fun tid => ?_⟩
  · funext tid
    rfl
  · funext tid
    rfl
  · rfl
  · funext tid
    simp [clearTid, cleared]
  · funext tid
    simp [ownInsertedTid, cleared]
  · funext tid
    rfl
  · funext tid
    rfl
  · funext tid
    rfl
  · simp

/-- nor below them. -/
theorem below : Alike levels (levels ++ [({} : RelationOverlay)]) := by
  refine ⟨?_, ?_, ?_, ?_, ?_, ?_, fun before => ?_, ?_, fun tid => ?_⟩
  · funext tid
    simp [tidRedirect]
  · funext tid
    simp [updateRedirect]
  · simp [Overlays.hasVisibilityDeltas, RelationOverlay.hasVisibilityDeltas]
  · funext tid
    induction levels with
    | nil => rfl
    | cons overlay rest ih => simp only [cons_append, clearTid, ih]
  · funext tid
    induction levels with
    | nil => rfl
    | cons overlay rest ih => simp only [cons_append, ownInsertedTid, ih]
  · funext tid
    simp [Overlays.insertedCid, RelationOverlay.insertedCid]
  · funext tid
    generalize (none : Option Nat) = later
    induction levels generalizing later with
    | nil => rfl
    | cons overlay rest ih => simp only [cons_append, invalidateTidFrom, ih]
  · funext tid
    induction levels with
    | nil => rfl
    | cons overlay rest ih => simp only [cons_append, Overlays.pendingTupleSlice, ih]
  · simp

theorem surrounded (above below : Nat) :
    Alike levels (replicate above ({} : RelationOverlay) ++ levels ++
      replicate below ({} : RelationOverlay)) := by
  induction below with
  | zero =>
    rw [replicate_zero, append_nil]
    induction above with
    | zero => exact ⟨rfl, rfl, rfl, rfl, rfl, rfl, fun _ => rfl, rfl, fun _ => Iff.rfl⟩
    | succ above ih => exact ih.trans (Alike.above _)
  | succ below ih =>
    rw [replicate_succ', ← append_assoc]
    exact ih.trans (Alike.below _)

end Alike

/-- The shorter way of reading one level decides and reads like the general
    rules, for the level alone and between any number of levels that hold
    nothing; so do the fetches that follow redirects first. -/
theorem single_level_exact (relation : RelationStorage) (overlay : RelationOverlay) (tid : Tid)
    (above below : Nat) :
    let stack := List.replicate above ({} : RelationOverlay) ++ [overlay] ++
      List.replicate below ({} : RelationOverlay)
    (∀ curcid,
      singleOverlayTidVisibility overlay tid curcid = Overlays.tidVisibility [overlay] tid curcid ∧
      singleOverlayTidVisibility overlay tid curcid = Overlays.tidVisibility stack tid curcid) ∧
    (relation.physicalVisibleTupleSlice [overlay] tid = relation.stackTupleSlice [overlay] tid none ∧
      relation.physicalVisibleTupleSlice [overlay] tid = relation.stackTupleSlice stack tid none) ∧
    (∀ curcid,
      relation.physicalVisibleTupleSliceAtCid [overlay] tid curcid =
        relation.stackTupleSlice [overlay] tid (some curcid) ∧
      relation.physicalVisibleTupleSliceAtCid [overlay] tid curcid =
        relation.stackTupleSlice stack tid (some curcid)) ∧
    relation.visibleTupleSlice [overlay] tid =
      relation.stackTupleSlice stack (relation.resolveTidRedirect stack tid) none ∧
    ∀ curcid, relation.visibleTupleSliceAtCid [overlay] tid curcid =
      seek (relation.hotNext stack) (fun tid => relation.stackTupleSlice stack tid (some curcid))
        maxHotRedirectHops tid := by
  intro stack
  have alike : Alike [overlay] stack := .surrounded [overlay] above below
  have plain : ∀ tid, relation.physicalVisibleTupleSlice [overlay] tid =
      relation.stackTupleSlice stack tid none := by
    intro tid
    rw [← relation.physicalVisibleTupleSlice_stack, alike.physicalVisibleTupleSlice]
  have snapshot : ∀ tid curcid, relation.physicalVisibleTupleSliceAtCid [overlay] tid curcid =
      relation.stackTupleSlice stack tid (some curcid) := by
    intro tid curcid
    rw [← relation.physicalVisibleTupleSliceAtCid_stack, alike.physicalVisibleTupleSliceAtCid]
  refine ⟨fun curcid => ⟨?_, ?_⟩, ⟨?_, plain tid⟩, fun curcid => ⟨?_, snapshot tid curcid⟩, ?_,
    fun curcid => ?_⟩
  · exact (tidVisibility_singleton overlay tid curcid).symm
  · rw [alike.tidVisibility, tidVisibility_singleton]
  · exact relation.physicalVisibleTupleSlice_stack [overlay] tid
  · exact relation.physicalVisibleTupleSliceAtCid_stack [overlay] tid curcid
  · rw [RelationStorage.visibleTupleSlice, plain, alike.resolveTidRedirect]
  · rw [RelationStorage.visibleTupleSliceAtCid, alike.hotNext]
    congr 1
    funext tid
    exact snapshot tid curcid

/-! ## An implicit transaction that holds nothing -/

/-- The innermost level holds nothing, and there are others below it. -/
def SessionStorage.Covered (session : SessionStorage) : Prop :=
  ∃ top parent rest, session.stack = top :: parent :: rest ∧ top.isEmpty = true

variable {session : SessionStorage}

/-- Where no level is covered, the shortcut drops nothing but empty levels, and
    all of them. -/
theorem SessionStorage.commitEmpty_levels (uncovered : ¬session.Covered)
    (implicit : session.explicitTransaction = false)
    (done : session.commitEmptyImplicitTransaction.2 = true) :
    (∀ level ∈ session.stack, level.isEmpty = true) ∧
      session.commitEmptyImplicitTransaction.1 = .initial := by
  obtain ⟨stack, explicit⟩ := session
  dsimp only at implicit
  subst implicit
  match stack with
  | [] => exact ⟨by simp, rfl⟩
  | [top] =>
    cases empty : top.isEmpty with
    | true => simp [commitEmptyImplicitTransaction, empty, initial]
    | false => simp [commitEmptyImplicitTransaction, empty] at done
  | top :: parent :: rest =>
    cases empty : top.isEmpty with
    | true => exact absurd ⟨top, parent, rest, rfl, empty⟩ uncovered
    | false => simp [commitEmptyImplicitTransaction, empty] at done

theorem SessionStorage.commitEmpty_keeps (slow : session.commitEmptyImplicitTransaction.2 = false) :
    session.commitEmptyImplicitTransaction.1 = session := by
  unfold commitEmptyImplicitTransaction at slow ⊢
  split at slow
  · cases slow
  · split at slow
    · cases slow
    · split at slow
      · cases slow
      · simp_all

namespace StorageState

variable {state : StorageState} {sid : SessionId}

theorem overlays_idle (empty : ∀ level ∈ (state.sessions sid).stack, level.isEmpty = true)
    (relid : Relid) : Idle (state.overlays sid relid) := by
  intro overlay mem
  obtain ⟨level, isOpen, rfl⟩ := mem_map.mp mem
  exact TransactionOverlay.get_of_isEmpty (empty level isOpen) relid

theorem xactCommit_of_isEmpty
    (empty : ∀ level ∈ (state.sessions sid).stack, level.isEmpty = true) :
    state.xactCommit sid = some (state.setSession sid .initial) := by
  have commits : ∀ relid, (state.localView sid relid).commitAll = some (state.relations relid) :=
    fun relid => (overlays_idle empty relid).commitAll
  simp only [xactCommit, commitAll, commits, Option.isSome_some, List.all_eq_true, implies_true,
    if_true, Option.map_some, Option.getD_some, setExplicit, setSession, SessionStorage.initial,
    Option.some.injEq, StorageState.mk.injEq, true_and]
  funext other
  split <;> rfl

/-- Outside explicit transactions a commit has only the levels to publish. -/
theorem xactCommit_implicit (implicit : (state.sessions sid).explicitTransaction = false) :
    state.xactCommit sid = state.commitAll sid := by
  unfold xactCommit commitAll
  dsimp only
  split
  · simp only [map_some, setExplicit, setSession, if_true, some.injEq,
      StorageState.mk.injEq, true_and]
    funext other
    split
    · rw [implicit]
    · rfl
  · rfl

theorem commitAll_stack {state' : StorageState} (committed : state.commitAll sid = some state') :
    (state'.sessions sid).stack = [] := by
  unfold commitAll at committed
  dsimp only at committed
  split at committed
  · cases committed
    simp [setSession]
  · cases committed

theorem xactCommitIfImplicit_implicit (uncovered : ¬(state.sessions sid).Covered)
    (implicit : (state.sessions sid).explicitTransaction = false) :
    state.xactCommitIfImplicit sid = state.xactCommit sid := by
  cases done : (state.sessions sid).commitEmptyImplicitTransaction.2 with
  | true =>
    obtain ⟨empty, dropped⟩ := SessionStorage.commitEmpty_levels uncovered implicit done
    simp only [xactCommitIfImplicit, done, if_true, dropped]
    exact (xactCommit_of_isEmpty empty).symm
  | false =>
    rw [xactCommit_implicit implicit]
    simp only [xactCommitIfImplicit, done, Bool.false_eq_true, if_false,
      SessionStorage.commitEmpty_keeps done, setSession_self]

/-- The shortcut drops a covering level and leaves the others where they are. -/
theorem xactCommitIfImplicit_covered (implicit : (state.sessions sid).explicitTransaction = false)
    (covered : (state.sessions sid).Covered) :
    ∃ state' level, state.xactCommitIfImplicit sid = some state' ∧
      level ∈ (state'.sessions sid).stack := by
  obtain ⟨top, parent, rest, stack, empty⟩ := covered
  refine ⟨state.setSession sid { state.sessions sid with stack := parent :: rest }, parent, ?_, ?_⟩
  · simp only [xactCommitIfImplicit, SessionStorage.commitEmptyImplicitTransaction, implicit, stack,
      empty, if_true, Bool.false_eq_true, if_false]
  · simp [setSession]

end StorageState

namespace Engine

variable {before : StorageState}

theorem commitCounts_of_isEmpty {after : StorageState} {sid : SessionId}
    (empty : ∀ level ∈ (before.sessions sid).stack, level.isEmpty = true) (counts : Relid → Nat) :
    commitCounts before after sid counts = counts := by
  funext relid
  have idle := StorageState.overlays_idle empty relid
  have unchanged : (before.localView sid relid).commitRecounts = false := by
    unfold Local.commitRecounts StorageState.localView
    dsimp only
    cases levels : before.overlays sid relid with
    | nil => rfl
    | cons top rest =>
      rw [levels] at idle
      dsimp only
      rw [idle top (mem_cons_self ..),
        Idle.mergeAll fun other mem => idle other (.tail _ mem)]
      rfl
  simp [commitCounts, unchanged]

theorem rollbackCounts_of_isEmpty {stack : List TransactionOverlay}
    (empty : ∀ level ∈ stack, level.isEmpty = true) (counts : Relid → Nat) :
    rollbackCounts before stack counts = counts := by
  funext relid
  simp only [rollbackCounts]
  generalize before.relations relid = relation
  induction stack generalizing relation with
  | nil => rfl
  | cons level rest ih =>
    rw [map_cons, TransactionOverlay.get_of_isEmpty (empty level (mem_cons_self ..))]
    exact ih (fun other mem => empty other (.tail _ mem)) _

variable {catalog : Catalog} {engine : Engine} {sid : SessionId}

/-- The end of a statement publishes as a commit does, counts included, where no
    level is covered. -/
theorem commit_shortcut (implicit : (engine.storage.sessions sid).explicitTransaction = false)
    (uncovered : ¬(engine.storage.sessions sid).Covered) :
    step catalog engine ⟨sid, .call .xactCommitIfImplicit⟩ =
      step catalog engine ⟨sid, .call .xactCommit⟩ := by
  simp only [step, Storage.step, StorageState.xactCommitIfImplicit_implicit uncovered implicit]
  congr 1
  funext storage
  simp only [countsAfter, Engine.mk.injEq, true_and]
  split
  next done =>
    exact (commitCounts_of_isEmpty
      (SessionStorage.commitEmpty_levels uncovered implicit done).1 _).symm
  next => rfl

theorem abort_shortcut (implicit : (engine.storage.sessions sid).explicitTransaction = false) :
    step catalog engine ⟨sid, .call .xactAbortIfImplicit⟩ =
      step catalog engine ⟨sid, .call .xactAbort⟩ := by
  simp only [step, Storage.step, StorageState.xactAbortIfImplicit_implicit implicit, countsAfter,
    map_some, some.injEq, Engine.mk.injEq, true_and]
  split
  next done =>
    refine (rollbackCounts_of_isEmpty (fun level isOpen => ?_) _).symm
    simp only [SessionStorage.abortEmptyImplicitTransaction, implicit, Bool.false_eq_true,
      if_false] at done
    split at done
    next empty => exact all_eq_true.mp empty level isOpen
    next => cases done
  next => rfl

/-- Ending a statement outside explicit transactions is the same as committing,
    or rolling back, every level, and leaves no level open, exactly if the
    innermost level is not an empty one above others. -/
theorem implicit_end_iff (catalog : Catalog) (engine : Engine) (sid : SessionId)
    (implicit : (engine.storage.sessions sid).explicitTransaction = false) :
    (step catalog engine ⟨sid, .call .xactCommitIfImplicit⟩ =
        step catalog engine ⟨sid, .call .xactCommit⟩ ∧
      (∀ engine', step catalog engine ⟨sid, .call .xactCommitIfImplicit⟩ = some engine' →
        (engine'.storage.sessions sid).stack = []) ∧
      step catalog engine ⟨sid, .call .xactAbortIfImplicit⟩ =
        step catalog engine ⟨sid, .call .xactAbort⟩) ↔
    ¬(engine.storage.sessions sid).Covered := by
  constructor
  · rintro ⟨-, ended, -⟩ covered
    obtain ⟨storage, level, committed, isOpen⟩ :=
      StorageState.xactCommitIfImplicit_covered implicit covered
    have taken : step catalog engine ⟨sid, .call .xactCommitIfImplicit⟩ = some ⟨storage,
        countsAfter engine.storage storage sid engine.rowCounts .xactCommitIfImplicit⟩ := by
      simp only [step, Storage.step, committed, Option.map_some]
    rw [ended _ taken] at isOpen
    cases isOpen
  · intro uncovered
    have same := @commit_shortcut catalog engine sid implicit uncovered
    refine ⟨same, fun engine' taken => ?_, abort_shortcut implicit⟩
    rw [same] at taken
    simp only [step, Storage.step, StorageState.xactCommit_implicit implicit,
      Option.map_eq_some_iff] at taken
    obtain ⟨storage, committed, rfl⟩ := taken
    exact StorageState.commitAll_stack committed

/-- A statement that inserted a row and left nothing else behind. -/
theorem implicit_end_inserted : ∃ engine,
    run (step fun _ => ⟨[], none⟩) .initial [⟨1, .call (.insert 7 [] .skip none false)⟩] =
        some engine ∧
      (step (fun _ => ⟨[], none⟩) engine ⟨1, .call .xactCommitIfImplicit⟩ =
          step (fun _ => ⟨[], none⟩) engine ⟨1, .call .xactCommit⟩ ∧
        (∀ engine', step (fun _ => ⟨[], none⟩) engine ⟨1, .call .xactCommitIfImplicit⟩ =
          some engine' → (engine'.storage.sessions 1).stack = []) ∧
        step (fun _ => ⟨[], none⟩) engine ⟨1, .call .xactAbortIfImplicit⟩ =
          step (fun _ => ⟨[], none⟩) engine ⟨1, .call .xactAbort⟩) := by
  obtain ⟨engine, ran⟩ : ∃ engine, run (step fun _ => ⟨[], none⟩) .initial
      [⟨1, .call (.insert 7 [] .skip none false)⟩] = some engine := ⟨_, rfl⟩
  have one : (engine.storage.sessions 1).stack.length = 1 := by
    cases ran
    decide
  refine ⟨engine, ran, (implicit_end_iff _ engine 1 ?_).mpr ?_⟩
  · cases ran
    rfl
  · rintro ⟨top, parent, rest, stack, -⟩
    rw [stack] at one
    cases one

/-- An insert, a savepoint and the end of the statement: the row stays pending
    in a level that is left open. -/
theorem implicit_end_leaves_row : ∃ engine ended committed,
    run (step fun _ => ⟨[], none⟩) .initial [⟨1, .call (.insert 7 [] .skip none false)⟩,
        ⟨1, .call .subxactBegin⟩] = some engine ∧
      (engine.storage.sessions 1).explicitTransaction = false ∧
      step (fun _ => ⟨[], none⟩) engine ⟨1, .call .xactCommitIfImplicit⟩ = some ended ∧
      step (fun _ => ⟨[], none⟩) engine ⟨1, .call .xactCommit⟩ = some committed ∧
      (ended.storage.sessions 1).stack.length = 1 ∧
      (ended.storage.relations 7).liveTids.elems = [] ∧
      (committed.storage.sessions 1).stack.length = 0 ∧
      (committed.storage.relations 7).liveTids.elems = [⟨0, 1⟩] := by
  refine ⟨_, _, _, rfl, rfl, rfl, rfl, ?_⟩
  decide

end Engine

end FastPg.Storage
