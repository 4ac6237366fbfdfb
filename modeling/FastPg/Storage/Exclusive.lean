import FastPg.Lib.Transition
import FastPg.Storage.Effects

/-! # Runs in which clears are exclusive

A clear replaces the relation under everyone at once, so it has to be used the
way an exclusive lock would: it is taken while no other session has changes in
the relation, and until the clearing session ends no other session changes it.
In every run that respects this, sessions share each relation soundly.
-/

namespace FastPg.Storage

open Transition List

/-- The relation a call may change rows or entries of. -/
def Call.changes : Call → Option Relid
  | .clear relid => some relid
  | .insert relid .. => some relid
  | .update relid .. => some relid
  | .updateHotIfPreserved relid .. => some relid
  | .delete relid .. => some relid
  | .recordPrimaryKey relid .. => some relid
  | .recordPrimaryKeyEntry relid .. => some relid
  | .recordIndexEntries relid .. => some relid
  | _ => none

/-- A call that respects the clears of other sessions. -/
structure RespectsClears (state : StorageState) (event : Event) : Prop where
  held : ∀ relid, event.call.changes = some relid → ∀ other, other ≠ event.sid →
    Overlays.holdsClear (state.overlays other relid) = false
  taken : ∀ relid, event.call = .clear relid → ∀ other, other ≠ event.sid →
    Idle (state.overlays other relid)

variable {catalog : Catalog} {state : StorageState} {event : Event} {sids : List SessionId}
  {call : Call} {relid : Relid} {f : Local → Local}

/-- A call that changes no rows leaves idle levels idle. -/
theorem Call.onRelation_idle (on : call.onRelation catalog = some (relid, f))
    (harmless : call.changes = none) {here : Local} (idle : Idle here.overlays) :
    Idle (f here).overlays := by
  cases call with
  | recordInvalidateMetadata _ tid xid cid =>
    cases on
    obtain ⟨relation, overlays⟩ := here
    cases overlays with
    | nil => exact idle
    | cons top outer =>
      have empty := idle top (mem_cons_self ..)
      subst empty
      exact idle
  | resolveTid | resolveUpdateTid | primaryKeyLookup | setMaxTuplesPerBlock =>
    cases on
    exact idle
  | xactBegin | xactBeginImplicit | xactCommit | xactAbort | xactCommitIfImplicit
  | xactAbortIfImplicit | subxactBegin | subxactCommit | subxactAbort => cases on
  | clear | insert | update | updateHotIfPreserved | delete | recordPrimaryKey
  | recordPrimaryKeyEntry | recordIndexEntries => cases harmless

theorem Call.changes_target {changed : Relid} (on : call.onRelation catalog = some (relid, f))
    (changes : call.changes = some changed) : changed = relid := by
  cases call <;> cases changes <;> cases on <;> rfl

/-- Every effect keeps the sharing sound, if clears are respected. -/
theorem Effect.shared {sid : SessionId} {view view' : View}
    (effect : Effect catalog relid sid call view view') (shared : Shared view)
    (held : call.changes = some relid → ∀ other, other ≠ sid →
      Overlays.holdsClear (view.levels other) = false)
    (taken : call = .clear relid → ∀ other, other ≠ sid → Idle (view.levels other)) :
    Shared view' := by
  have fresh : ∀ view : View, Shared view →
      Shared (view.put sid (view.reach sid).ensureTransaction) := by
    intro view shared
    apply shared.writes (.start (shared.levels sid))
    intro a ne busy
    have idle := shared.exclusive a sid ne busy
    unfold Local.ensureTransaction View.reach
    dsimp only
    split
    · intro overlay mem
      exact mem_singleton.mp mem
    · exact idle
  cases effect with
  | rest => exact shared
  | start unopened =>
    have started := fresh view shared
    rcases view.put_ensured sid with ⟨-, same⟩ | ⟨busy, -⟩
    · rwa [same] at started
    · exact absurd unopened busy
  | row on notClear =>
    have stack := shared.levels sid
    have moves : Local.Moves (catalog relid) (view.reach sid) _ :=
      Call.onRelation_moves on notClear stack
    apply shared.writes (moves.writes stack)
    intro a ne busy
    cases changes : call.changes with
    | none => exact Call.onRelation_idle on changes (shared.exclusive a sid ne busy)
    | some changed =>
      have same := Call.changes_target on changes
      subst same
      rw [held changes a ne] at busy
      cases busy
  | clear =>
    cases levels : view.levels sid with
    | nil => exact shared.clearAtOnce _ false levels (taken rfl)
    | cons top outer => exact shared.clear _ false levels (taken rfl)
  | push =>
    have next := @Shared.push _ sid (fresh view shared)
    rw [View.put_put, View.put_levels_self, View.put_relation,
      Local.ensureTransaction_relation] at next
    exact next
  | release levels => exact shared.release levels
  | undo levels => exact shared.undo levels
  | drop levels kept ends =>
    have dropped := shared.drop levels
    rcases kept with rfl | ⟨rfl, rfl⟩
    · exact dropped
    · have next := fresh _ dropped
      rw [View.put_put] at next
      simpa [View.reach, Local.ensureTransaction] using next
  | commit committed kept ends =>
    have done := shared.commit committed
    rcases kept with rfl | rfl
    · exact done
    · have next := fresh _ done
      rw [View.put_put] at next
      simpa [View.reach, Local.ensureTransaction] using next
  | rollback ends => exact shared.rollback

/-- Sessions share every relation soundly. -/
def AllShared (state : StorageState) : Prop := ∀ relid, Shared (state.view relid)

variable {state' : StorageState}

theorem initial_shared : AllShared .initial := by
  intro relid
  have empty : ∀ sid, (StorageState.initial.view relid).levels sid = [] := fun _ => rfl
  refine ⟨fun sid => ?_, ?_, ?_, ?_⟩
  · rw [empty]
    exact RelationStorage.default_sound
  · intro a b _ block mem
    rw [empty] at mem
    cases mem
  · intro a b _ tid mem
    rw [empty] at mem
    cases mem
  · intro a b _ _
    rw [empty]
    exact fun _ mem => by cases mem

theorem step_shared (shared : AllShared state) (respects : RespectsClears state event)
    (h : step catalog state event = some state') : AllShared state' := fun relid =>
  (step_effect h relid).shared (shared relid) (respects.held relid) (respects.taken relid)

theorem reaches_shared
    (reached : Reaches (step catalog) RespectsClears .initial state) : AllShared state :=
  reached.invariant initial_shared fun _ _ _ shared respects taken =>
    step_shared shared respects taken

/-! ## Checking a run -/

/-- Only the listed sessions may have levels. -/
def Within (sids : List SessionId) (state : StorageState) : Prop :=
  ∀ sid, sid ∉ sids → (state.sessions sid).stack = []

/-- Whether a call of a listed session respects the clears of the listed ones. -/
def respectsClears (sids : List SessionId) (state : StorageState) (event : Event) : Bool :=
  sids.contains event.sid &&
    (event.call.changes.all fun relid => sids.all fun other =>
      other == event.sid || !Overlays.holdsClear (state.overlays other relid)) &&
    match event.call with
    | .clear relid => sids.all fun other =>
      other == event.sid || (state.overlays other relid).all RelationOverlay.isEmpty
    | _ => true

theorem idle_iff_all_isEmpty {overlays : Overlays} :
    overlays.all RelationOverlay.isEmpty = true ↔ Idle overlays := by
  rw [all_eq_true]
  constructor
  · exact fun empty overlay mem => RelationOverlay.eq_empty (empty overlay mem)
  · intro idle overlay mem
    rw [idle overlay mem]
    rfl

theorem Within.overlays (within : Within sids state)
    {sid : SessionId} (outside : sid ∉ sids) (relid : Relid) : state.overlays sid relid = [] := by
  unfold StorageState.overlays
  rw [within sid outside]
  rfl

theorem respectsClears_sound
    (within : Within sids state) (checked : respectsClears sids state event = true) :
    RespectsClears state event := by
  simp only [respectsClears, Bool.and_eq_true] at checked
  obtain ⟨⟨-, held⟩, taken⟩ := checked
  constructor
  · intro relid changes other ne
    by_cases listed : other ∈ sids
    · rw [changes, Option.all_some, all_eq_true] at held
      simpa [ne] using held other listed
    · rw [within.overlays listed]
      rfl
  · intro relid clears other ne
    by_cases listed : other ∈ sids
    · rw [clears] at taken
      have free := all_eq_true.mp taken other listed
      apply idle_iff_all_isEmpty.mp
      simpa [ne] using free
    · rw [within.overlays listed]
      exact fun _ mem => by cases mem

namespace StorageState

variable {state state' : StorageState} {sid other : SessionId}

theorem setSession_sessions_other (ne : other ≠ sid) (session : SessionStorage) :
    (state.setSession sid session).sessions other = state.sessions other := if_neg ne

theorem commitAll_sessions_other (ne : other ≠ sid) (h : state.commitAll sid = some state') :
    state'.sessions other = state.sessions other := by
  unfold commitAll at h
  dsimp only at h
  split at h
  · cases h
    exact setSession_sessions_other ne _
  · cases h

theorem xactCommitIfImplicit_sessions_other (ne : other ≠ sid)
    (h : state.xactCommitIfImplicit sid = some state') :
    state'.sessions other = state.sessions other := by
  unfold xactCommitIfImplicit at h
  dsimp only at h
  split at h
  · cases h
    exact setSession_sessions_other ne _
  · exact (commitAll_sessions_other ne h).trans (setSession_sessions_other ne _)

end StorageState

open StorageState in
/-- A call leaves the levels of every other session alone. -/
theorem step_sessions_other (h : step catalog state event = some state') {other : SessionId}
    (ne : other ≠ event.sid) :
    state'.sessions other = state.sessions other := by
  obtain ⟨sid, call⟩ := event
  have set := @setSession_sessions_other
  cases call with
  | xactBegin =>
    simp only [step, xactBegin] at h
    split at h
    · cases h
      exact set ne _
    · obtain ⟨middle, committed, rfl⟩ := Option.map_eq_some_iff.mp h
      exact ((set ne _).trans (set ne _)).trans
        (xactCommitIfImplicit_sessions_other ne committed)
  | xactCommit =>
    obtain ⟨middle, committed, rfl⟩ := Option.map_eq_some_iff.mp h
    exact (set ne _).trans (commitAll_sessions_other ne committed)
  | xactAbort =>
    cases h
    exact (set ne _).trans (set ne _)
  | xactCommitIfImplicit => exact xactCommitIfImplicit_sessions_other ne h
  | xactAbortIfImplicit =>
    cases h
    simp only [xactAbortIfImplicit]
    split
    · exact set ne _
    · exact (set ne _).trans (set ne _)
  | subxactCommit =>
    cases h
    simp only [subxactCommit]
    split
    · exact set ne _
    · rfl
  | subxactAbort =>
    cases h
    simp only [subxactAbort]
    split
    · exact set ne _
    · rfl
  | xactBeginImplicit | subxactBegin | clear | insert | update | updateHotIfPreserved | delete
  | recordInvalidateMetadata | recordPrimaryKey | recordPrimaryKeyEntry | recordIndexEntries
  | resolveTid | resolveUpdateTid | primaryKeyLookup | setMaxTuplesPerBlock =>
    cases h
    exact set ne _

theorem Within.initial (sids : List SessionId) : Within sids .initial := fun _ _ => rfl

theorem Within.step (within : Within sids state) (listed : event.sid ∈ sids)
    (h : step catalog state event = some state') : Within sids state' := by
  intro other outside
  have ne : other ≠ event.sid := fun same => outside (same ▸ listed)
  rw [step_sessions_other h ne]
  exact within other outside

theorem respectsClears_listed
    (checked : respectsClears sids state event = true) : event.sid ∈ sids := by
  simp only [respectsClears, Bool.and_eq_true] at checked
  exact contains_iff_mem.mp checked.1.1

end FastPg.Storage
