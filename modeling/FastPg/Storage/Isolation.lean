import FastPg.Storage.Unseen

/-! # Sessions do not see uncommitted work

One call of a session, as another session sees it. What the other session
fetches, lists and finds by key stays, unless the call commits or clears
something, or undoes a clear. Following redirects is the delicate part: a lookup
compresses committed chains under everyone's feet.
-/

namespace FastPg.Storage

open Assoc Redirect Transition Overlays

/-- Two states of a relation that look the same to a session. -/
structure SameSight (before after : Local) : Prop where
  fetch : ∀ tid, (after.relation.fetchTid after.overlays tid).2 =
    (before.relation.fetchTid before.overlays tid).2
  fetchAt : ∀ tid curcid, after.relation.visibleTupleSliceAtCid after.overlays tid curcid =
    before.relation.visibleTupleSliceAtCid before.overlays tid curcid
  tids : after.relation.visibleTids after.overlays = before.relation.visibleTids before.overlays
  key : ∀ key, (after.relation.primaryKeyLookup after.overlays key).2 =
    (before.relation.primaryKeyLookup before.overlays key).2

theorem Unseen.sight {levels : Overlays} {before after : RelationStorage}
    (unseen : Unseen levels before after) (stack : StackSound before levels)
    (settled : Settled before levels) :
    SameSight ⟨before, levels⟩ ⟨after, levels⟩ where
  fetch := by
    intro tid
    rw [(unseen.settled stack settled).ended.fetchTid, settled.ended.fetchTid]
    exact unseen.visibleTupleSlice stack settled tid
  fetchAt := unseen.visibleTupleSliceAtCid stack settled
  tids := unseen.visibleTids stack
  key := by
    intro key
    rw [(unseen.settled stack settled).ended.primaryKeyLookup, settled.ended.primaryKeyLookup]
    exact unseen.primaryKeyLookupRead stack settled key

/-- A call that publishes nothing of a relation, does not clear it and undoes no
    clear of it. -/
structure Private (relid : Relid) (state : StorageState) (event : Event) : Prop where
  commits : event.call = .xactCommit ∨ event.call = .xactCommitIfImplicit ∨
    event.call = .xactBegin → Idle (state.overlays event.sid relid)
  clears : event.call ≠ .clear relid
  undoes : event.call = .subxactAbort →
    ∀ top ∈ (state.overlays event.sid relid).head?, top.cleared = false
  aborts : event.call = .xactAbort ∨ event.call = .xactAbortIfImplicit →
    Overlays.holdsClear (state.overlays event.sid relid) = false

variable {catalog : Catalog}

theorem Effect.unseen {relid : Relid} {sid other : SessionId} {call : Call} {view view' : View}
    (effect : Effect catalog relid sid call view view') (shared : Shared view)
    (commits : call = .xactCommit ∨ call = .xactCommitIfImplicit ∨ call = .xactBegin →
      Idle (view.levels sid)) (clears : call ≠ .clear relid)
    (undoes : call = .subxactAbort → ∀ top ∈ (view.levels sid).head?, top.cleared = false)
    (aborts : call = .xactAbort ∨ call = .xactAbortIfImplicit →
      holdsClear (view.levels sid) = false) (ne : other ≠ sid) :
    view'.levels other = view.levels other ∧
      Unseen (view.levels other) view.relation view'.relation := by
  have sound := (shared.levels sid).sound
  have kept : ∀ here, (view.put sid here).levels other = view.levels other :=
    fun here => view.put_levels_other here ne
  cases effect with
  | rest => exact ⟨rfl, .refl sound⟩
  | start | push | release | drop => exact ⟨kept _, .refl sound⟩
  | @row _ _ f on notClear =>
    have moves : Local.Moves (catalog relid) (view.reach sid) (f (view.reach sid)) :=
      Call.onRelation_moves on notClear (shared.levels sid)
    exact ⟨kept _, moves.unseen (shared.levels sid) _⟩
  | clear => exact absurd rfl clears
  | @undo _ child parent outer levels =>
    have stack := shared.levels sid
    have uncleared : child.cleared = false := undoes rfl child (by simp [levels])
    rw [levels] at stack
    refine ⟨kept _, Local.rollbackOverlay_unseen stack uncleared fun tid own => ?_⟩
    refine shared.apartRows sid other (Ne.symm ne) tid ?_
    rw [levels]
    exact mem_inserted_cons.mpr (.inl own)
  | @commit _ _ relation' left committed _ ends =>
    have idle := @Idle.commitAll view.relation _ (commits ends)
    cases Option.some.inj (committed.symm.trans idle)
    exact ⟨kept _, .refl sound⟩
  | rollback ends =>
    refine ⟨kept _, Local.rollbackAll_unseen (shared.levels sid)
      (uncleared_of_holdsClear (aborts ends)) fun tid own => ?_⟩
    exact shared.apartRows sid other (Ne.symm ne) tid own

/-- Uncommitted work of a session is not seen by the others. -/
theorem uncommitted_unseen {catalog : Catalog} {state state' : StorageState} {event : Event}
    (reached : Reaches (step catalog) RespectsClears .initial state)
    (_ : RespectsClears state event) (taken : step catalog state event = some state')
    {relid : Relid} (unpublished : Private relid state event) {other : SessionId}
    (different : other ≠ event.sid)
    (settled : Settled (state.relations relid) (state.overlays other relid)) :
    SameSight (state.localView other relid) (state'.localView other relid) := by
  have shared := reaches_shared reached
  obtain ⟨levels, unseen⟩ := (step_effect taken relid).unseen (shared relid)
    unpublished.commits unpublished.clears unpublished.undoes unpublished.aborts different
  have stack := (shared relid).levels other
  have kept : state'.overlays other relid = state.overlays other relid := levels
  rw [StorageState.localView, StorageState.localView, kept]
  exact unseen.sight stack settled

/-! ## Two runs -/

theorem reaches_of_checked (sids : List SessionId) {events : List Event} {state : StorageState}
    (admitted : admits (step catalog) (respectsClears sids) .initial events = true)
    (ran : run (step catalog) .initial events = some state) :
    Reaches (step catalog) RespectsClears .initial state ∧ Within sids state := by
  have reached : Reaches (step catalog) (fun state event =>
      RespectsClears state event ∧ event.sid ∈ sids) .initial state :=
    .of_run (fun _ _ _ (within : Within sids _) checked taken =>
        within.step (respectsClears_listed checked) taken)
      (fun _ _ within checked =>
        ⟨respectsClears_sound within checked, respectsClears_listed checked⟩)
      .refl (.initial sids) admitted ran
  exact ⟨reached.mono fun _ _ allowed => allowed.1, reached.invariant (.initial sids)
    fun _ _ _ within allowed taken => within.step allowed.2 taken⟩

/-- A committed row, updated by session 2 in an open transaction. -/
def openUpdate : List Event :=
  [⟨3, .insert 7 [] .skip none false⟩, ⟨3, .xactCommit⟩, ⟨2, .xactBegin⟩,
    ⟨2, .update 7 ⟨0, 1⟩ [] .skip true none⟩]

theorem uncommitted_unseen_openUpdate : ∃ state state',
    run (step bareCatalog) .initial openUpdate = some state ∧
      step bareCatalog state ⟨1, .insert 7 [] .skip none false⟩ = some state' ∧
      SameSight (state.localView 2 7) (state'.localView 2 7) := by
  obtain ⟨state, ran⟩ : ∃ state, run (step bareCatalog) .initial openUpdate = some state := ⟨_, rfl⟩
  obtain ⟨state', taken⟩ : ∃ state',
      step bareCatalog state ⟨1, .insert 7 [] .skip none false⟩ = some state' := ⟨_, rfl⟩
  obtain ⟨reached, within⟩ := reaches_of_checked [1, 2, 3] (by decide) ran
  have checked : respectsClears [1, 2, 3] state ⟨1, .insert 7 [] .skip none false⟩ = true := by
    cases ran
    decide
  have plain : (state.relations 7).hotRedirects = [] := by
    cases ran
    decide
  have levels : (state.overlays 2 7).map RelationOverlay.hotRedirectInserts =
      [[(⟨0, 1⟩, ⟨0, 2⟩)]] := by
    cases ran
    decide
  obtain ⟨overlay, only, redirects⟩ := List.map_eq_singleton_iff.mp levels
  have next : (state.relations 7).hotNext (state.overlays 2 7) = lookup [(⟨0, 1⟩, ⟨0, 2⟩)] := by
    funext tid
    simp [RelationStorage.hotNext, orElse, tidRedirect, only, redirects, plain]
  refine ⟨state, state', ran, taken, uncommitted_unseen reached
    (respectsClears_sound within checked) taken ⟨by simp, by simp, by simp, by simp⟩ (by decide) ?_⟩
  refine ⟨by simp [plain], fun tid => ?_, by simp [plain]⟩
  rw [next]
  by_cases updated : tid = ⟨0, 1⟩
  · subst updated
    have two : Ends (lookup [((⟨0, 1⟩ : Tid), (⟨0, 2⟩ : Tid))]) 1 ⟨0, 1⟩ ⟨0, 2⟩ :=
      .hop rfl (.stop rfl)
    exact ⟨_, two.mono (by simp [maxHotRedirectHops])⟩
  · exact ⟨tid, .stop (by simp [lookup_cons, Ne.symm updated])⟩

/-- Sessions 2 and 3 update the same row, and session 3 deletes it and commits. -/
def overtaken : List Event :=
  [⟨3, .insert 7 [] .skip none false⟩, ⟨3, .xactCommit⟩,
    ⟨3, .update 7 ⟨0, 1⟩ [] .skip true none⟩, ⟨3, .xactCommit⟩,
    ⟨2, .xactBegin⟩, ⟨2, .update 7 ⟨0, 2⟩ [] .skip true none⟩,
    ⟨3, .update 7 ⟨0, 2⟩ [] .skip true none⟩, ⟨3, .delete 7 ⟨0, 4⟩ false⟩, ⟨3, .xactCommit⟩]

/-- A lookup of session 1 takes the row that session 2 has updated out of its
    sight: the compressed chain passes over the redirect of session 2. -/
theorem lookup_hides_own_update : ∃ state state',
    Reaches (step bareCatalog) RespectsClears .initial state ∧
      (∀ sid, sid ≠ 2 → state.overlays sid 7 = []) ∧
      step bareCatalog state ⟨1, .resolveTid 7 ⟨0, 1⟩⟩ = some state' ∧
      ((state.relations 7).fetchTid (state.overlays 2 7) ⟨0, 1⟩).2 = encodeTuple [] ∧
      ((state'.relations 7).fetchTid (state'.overlays 2 7) ⟨0, 1⟩).2 = none := by
  obtain ⟨state, ran⟩ : ∃ state, run (step bareCatalog) .initial overtaken = some state := ⟨_, rfl⟩
  obtain ⟨reached, within⟩ := reaches_of_checked [1, 2, 3] (by decide) ran
  refine ⟨state, _, reached, fun sid other => ?_, rfl, ?_, ?_⟩
  · by_cases listed : sid ∈ [1, 2, 3]
    · cases ran
      simp only [List.mem_cons, List.not_mem_nil, or_false] at listed
      rcases listed with rfl | rfl | rfl
      · rfl
      · exact absurd rfl other
      · rfl
    · exact within.overlays listed 7
  · cases ran
    decide
  · cases ran
    decide

end FastPg.Storage
