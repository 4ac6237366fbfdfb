import FastPg.Storage.Depth
import FastPg.Storage.Sharing

/-! # One call, seen from one relation

Whatever a session calls, each relation sees one of a few effects: nothing, a
started transaction, a row operation, a clear, or the opening, release,
rollback or commit of levels. This is the inversion of the step function that
every property of whole runs is proved from.
-/

namespace FastPg.Storage

open Assoc Option
open List hiding insert lookup

namespace StorageState

def view (state : StorageState) (relid : Relid) : View :=
  ⟨state.relations relid, fun sid => state.overlays sid relid⟩

variable {state state' : StorageState} {sid : SessionId} {relid : Relid}

theorem view_put {here : Local} (relation : state'.relations relid = here.relation)
    (own : state'.overlays sid relid = here.overlays)
    (others : ∀ other, other ≠ sid → state'.overlays other relid = state.overlays other relid) :
    state'.view relid = (state.view relid).put sid here := by
  unfold view View.put
  rw [relation]
  congr 1
  funext other
  by_cases same : other = sid
  · subst same
    simpa using own
  · simpa [same] using others other same

theorem view_congr (relation : state'.relations relid = state.relations relid)
    (levels : ∀ sid, state'.overlays sid relid = state.overlays sid relid) :
    state'.view relid = state.view relid := by
  unfold view
  rw [relation]
  congr 1
  exact funext levels

theorem setSession_overlays_self (state : StorageState) (sid : SessionId) (session : SessionStorage)
    (relid : Relid) : (state.setSession sid session).overlays sid relid =
      session.stack.map fun level => level.get relid := by
  simp [setSession, overlays]

theorem setSession_overlays_other (state : StorageState) {other : SessionId}
    (session : SessionStorage) (relid : Relid) (ne : other ≠ sid) :
    (state.setSession sid session).overlays other relid = state.overlays other relid := by
  simp [setSession, overlays, ne]

theorem view_setSession (state : StorageState) (sid : SessionId) (session : SessionStorage)
    (relid : Relid) :
    (state.setSession sid session).view relid = (state.view relid).put sid
      ⟨state.relations relid, session.stack.map fun level => level.get relid⟩ :=
  view_put rfl (setSession_overlays_self state sid session relid)
    fun _ ne => setSession_overlays_other state session relid ne

theorem writeBack_get_self (relid : Relid) (stack : List TransactionOverlay) (overlays : Overlays) :
    (writeBack relid stack overlays).map (fun level => level.get relid) = overlays := by
  induction overlays generalizing stack with
  | nil => cases stack <;> rfl
  | cons overlay rest ih =>
    cases stack <;> simp [writeBack, TransactionOverlay.set, ih]

theorem writeBack_get_other {other : Relid} (ne : other ≠ relid) (stack : List TransactionOverlay)
    (overlays : Overlays) (sameLength : overlays.length = stack.length) :
    (writeBack relid stack overlays).map (fun level => level.get other) =
      stack.map fun level => level.get other := by
  induction stack generalizing overlays with
  | nil =>
    cases overlays with
    | nil => rfl
    | cons overlay rest => cases sameLength
  | cons level levels ih =>
    cases overlays with
    | nil => cases sameLength
    | cons overlay rest =>
      simp only [writeBack, map_cons, TransactionOverlay.set, ne, if_false]
      rw [ih rest (by simpa using sameLength)]

theorem view_putLocal_self (state : StorageState) (sid : SessionId) (relid : Relid) (here : Local) :
    (state.putLocal sid relid here).view relid = (state.view relid).put sid here := by
  apply view_put
  · simp [putLocal]
  · simp [putLocal, overlays, setSession, writeBack_get_self]
  · intro other ne
    simp [putLocal, overlays, setSession, ne]

/-- Another relation sees at most that a transaction was started. -/
theorem view_putLocal_other {other : Relid} {here : Local} (ne : other ≠ relid)
    (shape : here.overlays.length = (state.sessions sid).stack.length ∨
      ((state.sessions sid).stack = [] ∧ here.overlays.length = 1)) :
    (state.putLocal sid relid here).view other = state.view other ∨
      ((state.view other).levels sid = [] ∧
        (state.putLocal sid relid here).view other =
          (state.view other).put sid ⟨state.relations other, [{}]⟩) := by
  have relation : (state.putLocal sid relid here).relations other = state.relations other := by
    simp [putLocal, ne]
  have others : ∀ session, session ≠ sid →
      (state.putLocal sid relid here).overlays session other = state.overlays session other := by
    intro session apart
    simp [putLocal, overlays, setSession, apart]
  have own : (state.putLocal sid relid here).overlays sid other =
      (writeBack relid (state.sessions sid).stack here.overlays).map fun level => level.get other := by
    simp [putLocal, overlays, setSession]
  cases shape with
  | inl sameLength =>
    refine .inl (view_congr relation fun session => ?_)
    by_cases same : session = sid
    · subst same
      rw [own, writeBack_get_other ne _ _ sameLength]
      rfl
    · exact others session same
  | inr started =>
    obtain ⟨fresh, single⟩ := started
    refine .inr ⟨by simp [view, overlays, fresh], view_put relation ?_ others⟩
    obtain ⟨overlay, only⟩ := length_eq_one_iff.mp single
    rw [own, fresh, only]
    simp [writeBack, TransactionOverlay.set, TransactionOverlay.empty, ne]

end StorageState

theorem Reshaped.length {overlays overlays' : Overlays} (shape : Reshaped overlays overlays') :
    overlays'.length = overlays.length ∨ (overlays = [] ∧ overlays'.length = 1) := by
  rcases shape with rfl | ⟨rfl, top, rfl, -⟩ | ⟨top, top', outer, rfl, rfl, -⟩
  · exact .inl rfl
  · exact .inr ⟨rfl, rfl⟩
  · exact .inl rfl

/-- What a relation sees of one call of a session. -/
inductive Effect (catalog : Catalog) (relid : Relid) (sid : SessionId) : Call → View → View → Prop where
  | rest {call : Call} {view : View} : Effect catalog relid sid call view view
  | start {call : Call} {view : View} (fresh : view.levels sid = []) :
      Effect catalog relid sid call view (view.put sid ⟨view.relation, [{}]⟩)
  | row {call : Call} {view : View} {f : Local → Local}
      (on : call.onRelation catalog = some (relid, f)) (notClear : call ≠ .clear relid) :
      Effect catalog relid sid call view (view.put sid (f (view.reach sid)))
  | clear {view : View} : Effect catalog relid sid (.clear relid) view
      (view.put sid ((view.reach sid).clear (catalog relid) false))
  | push {view : View} : Effect catalog relid sid .subxactBegin view
      (view.put sid ⟨view.relation, {} :: (view.reach sid).ensureTransaction.overlays⟩)
  | release {view : View} {child parent : RelationOverlay} {outer : Overlays}
      (levels : view.levels sid = child :: parent :: outer) :
      Effect catalog relid sid .subxactCommit view
        (view.put sid ⟨view.relation, parent.appendFrom child :: outer⟩)
  | undo {view : View} {child parent : RelationOverlay} {outer : Overlays}
      (levels : view.levels sid = child :: parent :: outer) :
      Effect catalog relid sid .subxactAbort view
        (view.put sid ⟨Local.rollbackOverlay view.relation child, parent :: outer⟩)
  | drop {call : Call} {view : View} {outer left : Overlays}
      (levels : view.levels sid = {} :: outer) (kept : left = outer ∨ (outer = [] ∧ left = [{}]))
      (ends : call = .xactCommitIfImplicit ∨ call = .xactBegin) :
      Effect catalog relid sid call view (view.put sid ⟨view.relation, left⟩)
  | commit {call : Call} {view : View} {relation' : RelationStorage} {left : Overlays}
      (committed : (view.reach sid).commitAll = some relation') (kept : left = [] ∨ left = [{}])
      (ends : call = .xactCommit ∨ call = .xactCommitIfImplicit ∨ call = .xactBegin) :
      Effect catalog relid sid call view (view.put sid ⟨relation', left⟩)
  | rollback {call : Call} {view : View} (ends : call = .xactAbort ∨ call = .xactAbortIfImplicit) :
      Effect catalog relid sid call view
        (view.put sid ⟨Local.rollbackAll view.relation (view.levels sid), []⟩)

/-! ## Levels that hold nothing -/

theorem RelationOverlay.eq_empty {overlay : RelationOverlay} (empty : overlay.isEmpty = true) :
    overlay = {} := by
  cases overlay
  simp only [RelationOverlay.isEmpty, Bool.and_eq_true, List.isEmpty_iff, Option.isNone_iff_eq_none]
    at empty
  obtain ⟨⟨⟨⟨⟨⟨⟨⟨⟨⟨⟨⟨rfl, rfl⟩, rfl⟩, rfl⟩, rfl⟩, rfl⟩, rfl⟩, rfl⟩, rfl⟩, rfl⟩, rfl⟩, rfl⟩, rfl⟩ := empty
  rfl

theorem TransactionOverlay.get_of_isEmpty {level : TransactionOverlay} (empty : level.isEmpty = true)
    (relid : Relid) : level.get relid = {} := by
  by_cases touched : relid ∈ level.touched
  · exact RelationOverlay.eq_empty (all_eq_true.mp empty relid touched)
  · exact level.untouched relid touched

namespace Idle

theorem mergeAll {outer : Overlays} (idle : Idle outer) : Local.mergeAll {} outer = {} := by
  induction outer with
  | nil => rfl
  | cons parent rest ih =>
    rw [Local.mergeAll, idle parent (mem_cons_self ..),
      TransactionOverlay.appendFrom_default]
    exact ih fun other mem => idle other (.tail _ mem)

theorem commitAll {relation : RelationStorage} {overlays : Overlays} (idle : Idle overlays) :
    Local.commitAll ⟨relation, overlays⟩ = some relation := by
  cases overlays with
  | nil => rfl
  | cons top outer =>
    have merged : Local.mergeAll top outer = {} := by
      rw [idle top (mem_cons_self ..)]
      exact mergeAll fun other mem => idle other (.tail _ mem)
    unfold Local.commitAll
    dsimp only
    rw [merged]
    rfl

theorem rollbackAll {relation : RelationStorage} {overlays : Overlays} (idle : Idle overlays) :
    Local.rollbackAll relation overlays = relation := by
  induction overlays with
  | nil => rfl
  | cons top outer ih =>
    rw [Local.rollbackAll, idle top (mem_cons_self ..)]
    exact ih fun other mem => idle other (.tail _ mem)

end Idle

/-! ## Inverting a step -/

namespace StorageState

variable {state state' : StorageState} {sid : SessionId}

theorem idle_of_untouched {relid : Relid} (untouched : relid ∉ touchedRelids (state.sessions sid)) :
    Idle (state.overlays sid relid) := by
  intro overlay mem
  obtain ⟨level, open_, rfl⟩ := mem_map.mp mem
  apply level.untouched
  intro touched
  exact untouched (mem_flatMap.mpr ⟨level, open_, touched⟩)

theorem commitAll_spec (h : state.commitAll sid = some state') (relid : Relid) :
    ∃ relation', ((state.view relid).reach sid).commitAll = some relation' ∧
      state'.view relid = (state.view relid).put sid ⟨relation', []⟩ := by
  unfold commitAll at h
  dsimp only at h
  split at h
  · rename_i committed
    cases h
    have some_ : ((state.localView sid relid).commitAll).isSome := by
      by_cases touched : relid ∈ touchedRelids (state.sessions sid)
      · exact all_eq_true.mp committed relid touched
      · unfold localView
        rw [(idle_of_untouched touched).commitAll]
        rfl
    obtain ⟨relation', found⟩ := isSome_iff_exists.mp some_
    refine ⟨relation', found, view_put ?_ ?_ ?_⟩
    · simp [found]
    · simp [overlays, setSession]
    · intro other ne
      simp [overlays, setSession, ne]
  · cases h

theorem view_rollbackAll (relid : Relid) :
    (state.rollbackAll sid).view relid = (state.view relid).put sid
      ⟨Local.rollbackAll (state.view relid).relation ((state.view relid).levels sid), []⟩ := by
  apply view_put
  · rfl
  · simp [rollbackAll, overlays, setSession]
  · intro other ne
    simp [rollbackAll, overlays, setSession, ne]

theorem view_setExplicit (explicit : Bool) (relid : Relid) :
    (state.setExplicit sid explicit).view relid = state.view relid := by
  refine view_congr rfl fun other => ?_
  by_cases same : other = sid
  · subst same
    simp [setExplicit, overlays, setSession]
  · simp [setExplicit, overlays, setSession, same]

theorem view_ensureTransaction (relid : Relid) :
    (state.ensureTransaction sid).view relid =
      (state.view relid).put sid ((state.view relid).reach sid).ensureTransaction := by
  unfold ensureTransaction SessionStorage.ensureTransaction
  cases levels : (state.sessions sid).stack with
  | nil =>
    dsimp only
    rw [view_setSession]
    have fresh : (state.view relid).levels sid = [] := by simp [view, overlays, levels]
    have started : ((state.view relid).reach sid).ensureTransaction =
        ⟨state.relations relid, [{}]⟩ := by
      simp only [Local.ensureTransaction, View.reach, fresh]
      rfl
    rw [started]
    rfl
  | cons level rest =>
    dsimp only
    have busy : ((state.view relid).reach sid).ensureTransaction = (state.view relid).reach sid := by
      simp [Local.ensureTransaction, View.reach, view, overlays, levels]
    rw [view_setSession, busy, levels]
    have same : (level :: rest).map (fun level => level.get relid) =
        (state.view relid).levels sid := by
      simp [view, overlays, levels]
    rw [same]
    rfl

end StorageState

/-- Starting a transaction adds a level where there was none. -/
theorem View.put_ensured (view : View) (sid : SessionId) :
    (view.levels sid = [] ∧ view.put sid (view.reach sid).ensureTransaction =
      view.put sid ⟨view.relation, [{}]⟩) ∨
    (view.levels sid ≠ [] ∧ view.put sid (view.reach sid).ensureTransaction = view) := by
  cases levels : view.levels sid with
  | nil => exact .inl ⟨rfl, by simp [Local.ensureTransaction, View.reach, levels]⟩
  | cons top outer =>
    refine .inr ⟨by simp, ?_⟩
    have busy : (view.reach sid).ensureTransaction = view.reach sid := by
      simp [Local.ensureTransaction, View.reach, levels]
    rw [busy, View.put_self]

namespace StorageState

variable {state state' : StorageState} {sid : SessionId} (catalog : Catalog)

theorem view_setSession_same (relid : Relid) :
    (state.setSession sid (state.sessions sid)).view relid = state.view relid := by
  rw [view_setSession]
  exact View.put_self (state.view relid) sid

/-- Ending an implicit transaction: nothing, an empty level dropped, or a commit. -/
theorem xactCommitIfImplicit_cases (h : state.xactCommitIfImplicit sid = some state') :
    (∀ relid, state'.view relid = state.view relid) ∨
      (∀ relid, ∃ outer, (state.view relid).levels sid = {} :: outer ∧
        state'.view relid = (state.view relid).put sid ⟨(state.view relid).relation, outer⟩) ∨
      ∀ relid, ∃ relation', ((state.view relid).reach sid).commitAll = some relation' ∧
        state'.view relid = (state.view relid).put sid ⟨relation', []⟩ := by
  unfold xactCommitIfImplicit SessionStorage.commitEmptyImplicitTransaction at h
  dsimp only at h
  cases explicit : (state.sessions sid).explicitTransaction with
  | true =>
    simp only [explicit, if_true, some.injEq] at h
    subst h
    exact .inl view_setSession_same
  | false =>
    simp only [explicit, Bool.false_eq_true, if_false] at h
    cases levels : (state.sessions sid).stack with
    | nil =>
      simp only [levels, if_true, some.injEq] at h
      subst h
      exact .inl view_setSession_same
    | cons top outer =>
      simp only [levels] at h
      cases empty : top.isEmpty with
      | true =>
        simp only [empty, if_true, some.injEq] at h
        subst h
        refine .inr (.inl fun relid => ⟨outer.map fun level => level.get relid, ?_, ?_⟩)
        · simp [view, overlays, levels, TransactionOverlay.get_of_isEmpty empty relid]
        · exact view_setSession ..
      | false =>
        simp only [empty, Bool.false_eq_true, if_false] at h
        refine .inr (.inr fun relid => ?_)
        obtain ⟨relation', committed, viewed⟩ := commitAll_spec h relid
        rw [view_setSession_same] at committed viewed
        exact ⟨relation', committed, viewed⟩

theorem xactBegin_effect (h : state.xactBegin sid = some state') (relid : Relid) :
    Effect catalog relid sid .xactBegin (state.view relid) (state'.view relid) := by
  unfold xactBegin at h
  split at h
  · cases h
    rw [view_ensureTransaction]
    rcases (state.view relid).put_ensured sid with ⟨fresh, started⟩ | ⟨-, same⟩
    · rw [started]
      exact .start fresh
    · rw [same]
      exact .rest
  · cases ended : state.xactCommitIfImplicit sid with
    | none => simp [ended] at h
    | some middle =>
      simp only [ended, map_some, some.injEq] at h
      subst h
      rw [view_setExplicit, view_ensureTransaction]
      rcases xactCommitIfImplicit_cases ended with same | dropped | committed
      · rw [same]
        rcases (state.view relid).put_ensured sid with ⟨fresh, started⟩ | ⟨-, same⟩
        · rw [started]
          exact .start fresh
        · rw [same]
          exact .rest
      · obtain ⟨outer, levels, viewed⟩ := dropped relid
        rw [viewed]
        rcases ((state.view relid).put sid ⟨(state.view relid).relation, outer⟩).put_ensured sid with
          ⟨fresh, started⟩ | ⟨-, same⟩
        · rw [View.put_levels_self] at fresh
          rw [started, View.put_put]
          exact .drop levels (.inr ⟨fresh, rfl⟩) (.inr rfl)
        · rw [same]
          exact .drop levels (.inl rfl) (.inr rfl)
      · obtain ⟨relation', done, viewed⟩ := committed relid
        rw [viewed]
        rcases ((state.view relid).put sid ⟨relation', []⟩).put_ensured sid with
          ⟨-, started⟩ | ⟨busy, -⟩
        · rw [started, View.put_put]
          exact .commit done (.inr rfl) (.inr (.inr rfl))
        · simp at busy

theorem xactAbortIfImplicit_effect (relid : Relid) :
    Effect catalog relid sid .xactAbortIfImplicit (state.view relid)
      ((state.xactAbortIfImplicit sid).view relid) := by
  unfold xactAbortIfImplicit SessionStorage.abortEmptyImplicitTransaction
  dsimp only
  cases explicit : (state.sessions sid).explicitTransaction with
  | true =>
    simp only [if_true]
    rw [view_setSession_same]
    exact .rest
  | false =>
    simp only [Bool.false_eq_true, if_false]
    cases empty : (state.sessions sid).stack.all TransactionOverlay.isEmpty with
    | true =>
      simp only [if_true]
      have idle : Idle ((state.view relid).levels sid) := by
        intro overlay mem
        obtain ⟨level, open_, rfl⟩ := mem_map.mp mem
        exact TransactionOverlay.get_of_isEmpty (all_eq_true.mp empty level open_) relid
      have effect : Effect catalog relid sid .xactAbortIfImplicit (state.view relid) _ :=
        .rollback (.inr rfl)
      rw [idle.rollbackAll] at effect
      rw [view_setSession]
      exact effect
    | false =>
      simp only [Bool.false_eq_true, if_false]
      have effect : Effect catalog relid sid .xactAbortIfImplicit (state.view relid) _ :=
        .rollback (.inr rfl)
      rw [view_rollbackAll, view_setSession_same]
      exact effect

theorem subxact_effect (relid : Relid) :
    Effect catalog relid sid .subxactBegin (state.view relid)
        ((state.subxactBegin sid).view relid) ∧
      Effect catalog relid sid .subxactCommit (state.view relid)
        ((state.subxactCommit sid).view relid) ∧
      Effect catalog relid sid .subxactAbort (state.view relid)
        ((state.subxactAbort sid).view relid) := by
  refine ⟨?_, ?_, ?_⟩
  · have ensured := view_setSession state sid (state.sessions sid).ensureTransaction relid
    have opened := @view_ensureTransaction state sid relid
    unfold ensureTransaction at opened
    rw [opened] at ensured
    have levels := congrArg (fun view => View.levels view sid) ensured
    simp only [View.put_levels_self] at levels
    unfold subxactBegin
    dsimp only
    rw [view_setSession, map_cons, ← levels]
    exact .push
  · unfold subxactCommit
    dsimp only
    split
    · rename_i child parent outer levels
      rw [view_setSession]
      exact .release (by simp [view, overlays, levels])
    · exact .rest
  · unfold subxactAbort
    dsimp only
    split
    · rename_i child parent outer levels
      have viewed : StorageState.view
          { state.setSession sid { state.sessions sid with stack := parent :: outer } with
            relations := fun relid =>
              Local.rollbackOverlay (state.relations relid) (child.get relid) } relid =
          (state.view relid).put sid
            ⟨Local.rollbackOverlay (state.relations relid) (child.get relid),
              (parent :: outer).map fun level => level.get relid⟩ := by
        apply view_put
        · rfl
        · simp [overlays, setSession]
        · intro other ne
          simp [overlays, setSession, ne]
      rw [viewed]
      exact .undo (by simp [view, overlays, levels])
    · exact .rest

/-- A relation that is not the target sees at most that a transaction was started. -/
theorem putLocal_other_effect (call : Call) {target relid : Relid} {here : Local}
    (other : relid ≠ target) (depth : (state.localView sid target).SameDepth here) :
    Effect catalog relid sid call (state.view relid) ((state.putLocal sid target here).view relid) := by
  have levels : (state.localView sid target).overlays.length = (state.sessions sid).stack.length :=
    length_map _
  have shape : here.overlays.length = (state.sessions sid).stack.length ∨
      ((state.sessions sid).stack = [] ∧ here.overlays.length = 1) := by
    rw [← length_eq_zero_iff, ← levels]
    exact depth
  rcases view_putLocal_other other shape with same | ⟨fresh, started⟩
  · rw [same]
    exact .rest
  · rw [started]
    exact .start fresh

theorem onRelation_effect {catalog : Catalog} {call : Call} {target : Relid} {f : Local → Local}
    (on : call.onRelation catalog = some (target, f)) (relid : Relid) :
    Effect catalog relid sid call (state.view relid)
      ((state.putLocal sid target (f (state.localView sid target))).view relid) := by
  by_cases here : relid = target
  · subst here
    rw [view_putLocal_self]
    by_cases cleared : call = .clear relid
    · subst cleared
      cases on
      exact .clear
    · exact .row on cleared
  · exact putLocal_other_effect catalog call here (Call.onRelation_depth on _)

end StorageState

/-- The inversion: every call has one effect on each relation. -/
theorem step_effect {catalog : Catalog} {state state' : StorageState} {event : Event}
    (h : step catalog state event = some state') (relid : Relid) :
    Effect catalog relid event.sid event.call (state.view relid) (state'.view relid) := by
  obtain ⟨sid, call⟩ := event
  have onRelation : ∀ target f, call.onRelation catalog = some (target, f) →
      state' = state.putLocal sid target (f (state.localView sid target)) →
      Effect catalog relid sid call (state.view relid) (state'.view relid) := by
    intro target f on same
    rw [same]
    exact StorageState.onRelation_effect on relid
  cases call with
  | xactBegin => exact StorageState.xactBegin_effect catalog h relid
  | xactBeginImplicit =>
    cases h
    rw [StorageState.view_ensureTransaction]
    rcases (state.view relid).put_ensured sid with ⟨fresh, started⟩ | ⟨-, same⟩
    · rw [started]
      exact .start fresh
    · rw [same]
      exact .rest
  | xactCommit =>
    simp only [step, StorageState.xactCommit] at h
    cases committed : state.commitAll sid with
    | none => simp [committed] at h
    | some middle =>
      simp only [committed, map_some, some.injEq] at h
      subst h
      obtain ⟨relation', done, viewed⟩ := StorageState.commitAll_spec committed relid
      rw [StorageState.view_setExplicit, viewed]
      exact .commit done (.inl rfl) (.inl rfl)
  | xactAbort =>
    cases h
    unfold StorageState.xactAbort
    rw [StorageState.view_setExplicit, StorageState.view_rollbackAll]
    exact .rollback (.inl rfl)
  | xactCommitIfImplicit =>
    rcases StorageState.xactCommitIfImplicit_cases h with same | dropped | committed
    · rw [same]
      exact .rest
    · obtain ⟨outer, levels, viewed⟩ := dropped relid
      rw [viewed]
      exact .drop levels (.inl rfl) (.inl rfl)
    · obtain ⟨relation', done, viewed⟩ := committed relid
      rw [viewed]
      exact .commit done (.inl rfl) (.inr (.inl rfl))
  | xactAbortIfImplicit =>
    cases h
    exact StorageState.xactAbortIfImplicit_effect catalog relid
  | subxactBegin =>
    cases h
    exact (StorageState.subxact_effect catalog relid).1
  | subxactCommit =>
    cases h
    exact (StorageState.subxact_effect catalog relid).2.1
  | subxactAbort =>
    cases h
    exact (StorageState.subxact_effect catalog relid).2.2
  | clear | insert | update | updateHotIfPreserved | delete | recordInvalidateMetadata
  | recordPrimaryKey | recordPrimaryKeyEntry | recordIndexEntries | resolveTid | resolveUpdateTid
  | primaryKeyLookup | setMaxTuplesPerBlock =>
    cases h
    exact onRelation _ _ rfl rfl

end FastPg.Storage
