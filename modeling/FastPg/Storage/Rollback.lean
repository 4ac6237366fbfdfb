import FastPg.Storage.Savepoint

/-! # What a rollback to a savepoint restores

A subtransaction that is rolled back leaves the relation as the outer levels
read it. Whether the session then finds what it found before depends on the
cached row count as well, because lookups by key go different ways where it is
zero: it has to tell an empty relation from one with rows when the
subtransaction begins, for a rollback of a clear refreshes it.
-/

namespace FastPg.Storage

open Assoc Redirect Transition RelationStorage Overlays

/-! ## Runs inside a subtransaction -/

namespace StorageState

variable {state : StorageState} {sid : SessionId} {relid : Relid}

theorem localView_putLocal_self (here : Local) :
    (state.putLocal sid relid here).localView sid relid = here := by
  have view := congrArg (fun view => view.reach sid) (state.view_putLocal_self sid relid here)
  exact view.trans (by simp [View.reach])

theorem localView_putLocal_other {other : Relid} {here : Local} (ne : other ≠ relid)
    (busy : (state.sessions sid).stack ≠ [])
    (length : here.overlays.length = (state.overlays sid relid).length) :
    (state.putLocal sid relid here).localView sid other = state.localView sid other := by
  have size : here.overlays.length = (state.sessions sid).stack.length := by
    rw [length, overlays, List.length_map]
  rcases view_putLocal_other ne (.inl size) with same | ⟨fresh, -⟩
  · exact congrArg (fun view => view.reach sid) same
  · exact absurd (List.map_eq_nil_iff.mp fresh) busy

end StorageState

namespace Engine

/-- A relation as a session reaches it, with its cached row count. -/
def reach (engine : Engine) (sid : SessionId) (relid : Relid) : Local × Nat :=
  (engine.storage.localView sid relid, engine.rowCounts relid)

/-- Row operations, clears, replacements, lookups and nested savepoints of one
    session, with no other session acting. -/
inductive Inside (catalog : Catalog) (sid : SessionId) : Engine → Engine → Prop where
  | done {engine : Engine} : Inside catalog sid engine engine
  | call {start before after : Engine} {call : Call} (prior : Inside catalog sid start before)
      (row : (call.onRelation catalog).isSome)
      (taken : step catalog before ⟨sid, .call call⟩ = some after) : Inside catalog sid start after
  | replaceFrom {start before after : Engine} {dst src : Relid}
      (prior : Inside catalog sid start before)
      (taken : step catalog before ⟨sid, .replaceFrom dst src⟩ = some after) :
      Inside catalog sid start after
  | released {start before begun worked after : Engine} (prior : Inside catalog sid start before)
      (began : step catalog before ⟨sid, .call .subxactBegin⟩ = some begun)
      (inside : Inside catalog sid begun worked)
      (committed : step catalog worked ⟨sid, .call .subxactCommit⟩ = some after) :
      Inside catalog sid start after
  | undone {start before begun worked after : Engine} (prior : Inside catalog sid start before)
      (began : step catalog before ⟨sid, .call .subxactBegin⟩ = some begun)
      (inside : Inside catalog sid begun worked)
      (aborted : step catalog worked ⟨sid, .call .subxactAbort⟩ = some after) :
      Inside catalog sid start after

variable {catalog : Catalog} {engine engine' : Engine} {sid : SessionId}
  {child parent : RelationOverlay} {outer : Overlays} {relid target : Relid}

theorem reach_subxactBegin
    (taken : step catalog engine ⟨sid, .call .subxactBegin⟩ = some engine') (relid : Relid) :
    engine'.reach sid relid = (⟨engine.storage.relations relid,
      {} :: (engine.storage.localView sid relid).ensureTransaction.overlays⟩,
      engine.rowCounts relid) := by
  cases taken
  have levels := StorageState.setSession_overlays_self engine.storage sid
    { (engine.storage.sessions sid).ensureTransaction with
      stack := .empty :: (engine.storage.sessions sid).ensureTransaction.stack } relid
  refine Prod.ext (congrArg (Local.mk _) (levels.trans (congrArg (List.cons _) ?_))) rfl
  cases stack : (engine.storage.sessions sid).stack <;>
    simp [SessionStorage.ensureTransaction, Local.ensureTransaction, StorageState.localView,
      StorageState.overlays, stack, TransactionOverlay.empty]

/-- Two levels of a relation are two levels of the session. -/
theorem two_levels {state : StorageState}
    (levels : state.overlays sid relid = child :: parent :: outer) :
    ∃ top below rest, (state.sessions sid).stack = top :: below :: rest ∧ top.get relid = child ∧
      below.get relid = parent ∧ rest.map (fun level => level.get relid) = outer := by
  obtain ⟨top, more, stack, first, levels⟩ := List.map_eq_cons_iff.mp levels
  obtain ⟨below, rest, rfl, second, levels⟩ := List.map_eq_cons_iff.mp levels
  exact ⟨top, below, rest, stack, first, second, levels⟩

theorem reach_subxactCommit (taken : step catalog engine ⟨sid, .call .subxactCommit⟩ = some engine')
    (levels : engine.storage.overlays sid relid = child :: parent :: outer) :
    engine'.reach sid relid = (⟨engine.storage.relations relid, parent.appendFrom child :: outer⟩,
      engine.rowCounts relid) := by
  obtain ⟨top, below, rest, stack, rfl, rfl, rfl⟩ := two_levels levels
  cases taken
  refine Prod.ext ?_ rfl
  simp [reach, StorageState.localView, StorageState.subxactCommit, stack, StorageState.setSession,
    StorageState.overlays, TransactionOverlay.appendFrom]

theorem reach_subxactAbort (taken : step catalog engine ⟨sid, .call .subxactAbort⟩ = some engine')
    (levels : engine.storage.overlays sid relid = child :: parent :: outer) :
    engine'.reach sid relid =
      (⟨Local.rollbackOverlay (engine.storage.relations relid) child, parent :: outer⟩,
        Local.rollbackCount (engine.storage.relations relid) [child] (engine.rowCounts relid)) := by
  obtain ⟨top, below, rest, stack, rfl, rfl, rfl⟩ := two_levels levels
  cases taken
  refine Prod.ext ?_ ?_
  · simp [reach, StorageState.localView, StorageState.subxactAbort, stack, StorageState.setSession,
      StorageState.overlays]
  · simp [reach, countsAfter, stack, rollbackCounts]

/-- A call on one relation leaves the counts alone. -/
theorem step_call {call : Call} {f : Local → Local}
    (taken : step catalog engine ⟨sid, .call call⟩ = some engine')
    (on : call.onRelation catalog = some (target, f))
    (busy : (engine.storage.sessions sid).stack ≠ []) :
    engine' = ⟨engine.storage.putLocal sid target (f (engine.storage.localView sid target)),
      engine.rowCounts⟩ := by
  cases call with
  | clear relid =>
    cases on
    cases taken
    simp [countsAfter, clearCounts, busy]
  | xactBegin | xactBeginImplicit | xactCommit | xactAbort | xactCommitIfImplicit
  | xactAbortIfImplicit | subxactBegin | subxactCommit | subxactAbort => cases on
  | insert | update | updateHotIfPreserved | delete | recordInvalidateMetadata | recordPrimaryKey
  | recordPrimaryKeyEntry | recordIndexEntries | resolveTid | resolveUpdateTid | primaryKeyLookup
  | setMaxTuplesPerBlock =>
    cases on
    cases taken
    rfl

theorem reach_put {here : Local} {counts : Relid → Nat}
    (busy : (engine.storage.sessions sid).stack ≠ [])
    (length : here.overlays.length = (engine.storage.overlays sid target).length) :
    (Engine.mk (engine.storage.putLocal sid target here) counts).reach sid relid =
      (if relid = target then here else engine.storage.localView sid relid, counts relid) := by
  refine Prod.ext ?_ rfl
  by_cases same : relid = target
  · subst same
    rw [if_pos rfl]
    exact StorageState.localView_putLocal_self here
  · rw [if_neg same]
    exact StorageState.localView_putLocal_other same busy length

/-- A session inside a transaction, with well-formed levels. -/
structure Ready (engine : Engine) (sid : SessionId) : Prop where
  busy : (engine.storage.sessions sid).stack ≠ []
  stack : ∀ relid, StackSound (engine.storage.relations relid) (engine.storage.overlays sid relid)

section

variable (ready : Ready engine sid)
include ready

theorem Ready.levels (relid : Relid) :
    engine.storage.overlays sid relid ≠ [] := fun nothing =>
  ready.busy (List.map_eq_nil_iff.mp nothing)

theorem Ready.span {after : Engine}
    (span : ∀ relid, Span (engine.reach sid relid) (after.reach sid relid)) : Ready after sid where
  busy := by
    intro nothing
    have length := ((span 0).stack (ready.levels 0) (ready.stack 0)).2
    simp only [reach, StorageState.localView, StorageState.overlays, nothing, List.map_nil,
      List.length_nil] at length
    exact ready.levels 0 (List.eq_nil_of_length_eq_zero length.symm)
  stack := fun relid => ((span relid).stack (ready.levels relid) (ready.stack relid)).1

/-- What is done to one relation is a span of that relation and nothing to the others. -/
theorem Ready.put {here : Local}
    (turn : Span (engine.reach sid target) (here, engine.rowCounts target)) (relid : Relid) :
    Span (engine.reach sid relid)
      ((Engine.mk (engine.storage.putLocal sid target here) engine.rowCounts).reach sid relid) := by
  rw [reach_put ready.busy (turn.stack (ready.levels target) (ready.stack target)).2]
  by_cases same : relid = target
  · subst same
    rw [if_pos rfl]
    exact turn
  · rw [if_neg same]
    exact .done

theorem Ready.call {call : Call} (row : (call.onRelation catalog).isSome)
    (taken : step catalog engine ⟨sid, .call call⟩ = some engine') (relid : Relid) :
    Span (engine.reach sid relid) (engine'.reach sid relid) := by
  obtain ⟨⟨target, f⟩, on⟩ := Option.isSome_iff_exists.mp row
  rw [step_call taken on ready.busy]
  refine ready.put ?_ relid
  by_cases cleared : call = .clear target
  · subst cleared
    cases on
    exact .clear .done (catalog target) false
  · exact .moves .done (Call.onRelation_moves on cleared (ready.stack target))

theorem Ready.replaceFrom {dst src : Relid}
    (taken : step catalog engine ⟨sid, .replaceFrom dst src⟩ = some engine') (relid : Relid) :
    Span (engine.reach sid relid) (engine'.reach sid relid) := by
  have counts : clearCounts engine.storage sid dst engine.rowCounts = engine.rowCounts := by
    simp [clearCounts, ready.busy]
  cases taken
  rw [counts]
  exact ready.put (.moves (.clear .done (catalog dst) true) (Local.copyTuples_moves ..)) relid

end

/-- A nested block: the level it opens, and the levels it ends with. -/
theorem Ready.nested {begun worked : Engine} (ready : Ready engine sid)
    (began : step catalog engine ⟨sid, .call .subxactBegin⟩ = some begun)
    (inside : Ready begun sid →
      ∀ relid, Span (begun.reach sid relid) (worked.reach sid relid)) (relid : Relid) :
    ∃ child parent outer, worked.storage.overlays sid relid = child :: parent :: outer ∧
      Span (⟨engine.storage.relations relid, {} :: engine.storage.overlays sid relid⟩,
        engine.rowCounts relid) (worked.reach sid relid) := by
  have begins : ∀ relid, begun.reach sid relid = (⟨engine.storage.relations relid,
      {} :: engine.storage.overlays sid relid⟩, engine.rowCounts relid) := by
    intro relid
    obtain ⟨top, rest, levels⟩ := List.exists_cons_of_ne_nil (ready.levels relid)
    rw [reach_subxactBegin began]
    simp [Local.ensureTransaction, StorageState.localView, levels]
  have levels : ∀ relid, begun.storage.overlays sid relid =
      {} :: engine.storage.overlays sid relid := fun relid =>
    congrArg (fun reached => reached.1.overlays) (begins relid)
  have relations : ∀ relid, begun.storage.relations relid = engine.storage.relations relid :=
    fun relid => congrArg (fun reached => reached.1.relation) (begins relid)
  have opened : Ready begun sid := by
    refine ⟨fun nothing => ?_, fun relid => ?_⟩
    · have empty := levels 0
      rw [StorageState.overlays, nothing] at empty
      cases empty
    · rw [levels, relations]
      exact ⟨Idle.emptyLevel (ready.stack relid).sound _, ready.stack relid⟩
  have span := inside opened relid
  have length := (span.stack (opened.levels relid) (opened.stack relid)).2
  have deep : (worked.storage.overlays sid relid).length =
      (engine.storage.overlays sid relid).length + 1 :=
    length.trans (congrArg List.length (levels relid))
  obtain ⟨child, rest, split⟩ := List.exists_cons_of_length_eq_add_one deep
  have more : rest ≠ [] := by
    rintro rfl
    rw [split] at deep
    exact ready.levels relid (List.eq_nil_of_length_eq_zero (Nat.succ.inj deep).symm)
  obtain ⟨parent, outer, rfl⟩ := List.exists_cons_of_ne_nil more
  exact ⟨child, parent, outer, split, begins relid ▸ span⟩

/-- Every relation, as a session reaches it, goes through a span of its own. -/
theorem Inside.span {start after : Engine} (inside : Inside catalog sid start after)
    (ready : Ready start sid) (relid : Relid) :
    Span (start.reach sid relid) (after.reach sid relid) := by
  induction inside generalizing relid with
  | done => exact .done
  | call prior row taken ih =>
    exact (ih ready relid).trans ((ready.span (ih ready)).call row taken relid)
  | replaceFrom prior taken ih =>
    exact (ih ready relid).trans ((ready.span (ih ready)).replaceFrom taken relid)
  | released prior began inside committed ih nested =>
    obtain ⟨child, parent, outer, levels, span⟩ :=
      (ready.span (ih ready)).nested began nested relid
    rw [reach_subxactCommit committed levels]
    rw [reach, StorageState.localView, levels] at span
    exact .released (ih ready relid) span
  | undone prior began inside aborted ih nested =>
    obtain ⟨child, parent, outer, levels, span⟩ :=
      (ready.span (ih ready)).nested began nested relid
    rw [reach_subxactAbort aborted levels]
    rw [reach, StorageState.localView, levels] at span
    exact .undone (ih ready relid) span

end Engine

/-! ## Lookups -/

/-- What a session finds by key, given the cached row count. -/
structure SameLookups (before after : Local × Nat) : Prop where
  key : ∀ key, (after.1.relation.primaryKeyIndexLookup after.1.overlays after.2 key).2 =
    (before.1.relation.primaryKeyIndexLookup before.1.overlays before.2 key).2
  keyWithSpec : ∀ spec key,
    (after.1.relation.primaryKeyIndexLookupWithSpec after.1.overlays after.2 spec key).2 =
      (before.1.relation.primaryKeyIndexLookupWithSpec before.1.overlays before.2 spec key).2
  index : ∀ indexRelid key maxTids,
    after.1.relation.indexPrefixLookup after.1.overlays after.2 indexRelid key maxTids =
      before.1.relation.indexPrefixLookup before.1.overlays before.2 indexRelid key maxTids

theorem SameSight.trans {a b c : Local} (first : SameSight a b) (second : SameSight b c) :
    SameSight a c where
  fetch := fun tid => (second.fetch tid).trans (first.fetch tid)
  fetchAt := fun tid curcid => (second.fetchAt tid curcid).trans (first.fetchAt tid curcid)
  tids := second.tids.trans first.tids
  key := fun key => (second.key key).trans (first.key key)

theorem SameLookups.trans {a b c : Local × Nat} (first : SameLookups a b)
    (second : SameLookups b c) : SameLookups a c where
  key := fun key => (second.key key).trans (first.key key)
  keyWithSpec := fun spec key => (second.keyWithSpec spec key).trans (first.keyWithSpec spec key)
  index := fun indexRelid key maxTids =>
    (second.index indexRelid key maxTids).trans (first.index indexRelid key maxTids)

/-- Redirects that compression cannot lead astray, and a row count that is zero
    for an empty relation only. -/
structure Restorable (here : Local) (count : Nat) : Prop where
  settled : Settled here.relation here.overlays
  updateApart : ∀ tid, (Overlays.updateRedirect here.overlays tid).isSome →
    lookup here.relation.updateRedirects tid = none
  updateEnds : ∀ tid, ∃ target,
    Ends (here.relation.updateNext here.overlays) maxHotRedirectHops tid target
  counted : count = 0 ↔ here.relation.liveTids.elems = []

namespace Unseen

variable {levels : Overlays} {before after : RelationStorage} {count count' : Nat}

section

variable (unseen : Unseen levels before after)
include unseen

theorem resolveUpdateRedirect (restorable : Restorable ⟨before, levels⟩ count) (tid : Tid) :
    after.resolveUpdateRedirect levels tid = before.resolveUpdateRedirect levels tid := by
  obtain ⟨target, ends⟩ := restorable.updateEnds tid
  have shortcuts : Shortcuts (before.updateNext levels) (after.updateNext levels) :=
    unseen.updates.orElse restorable.updateApart
  exact (shortcuts.ends ends).follow_eq.trans ends.follow_eq.symm

theorem findVisibleTuple (stack : StackSound before levels) (settled : Settled before levels)
    (tid : Tid) :
    after.findVisibleTuple levels tid = before.findVisibleTuple levels tid := by
  rw [RelationStorage.findVisibleTuple, RelationStorage.findVisibleTuple,
    unseen.resolveTidRedirect settled, unseen.visibleTupleSlice stack settled]

theorem findVisibleByScan (stack : StackSound before levels) (settled : Settled before levels)
    (spec : UniqueIndexSpec) (key : IndexKey) (replacing : Option Tid) :
    after.findVisibleByScan levels spec key replacing =
      before.findVisibleByScan levels spec key replacing := by
  rw [RelationStorage.findVisibleByScan, RelationStorage.findVisibleByScan,
    unseen.visibleTids stack]
  simp only [unseen.findVisibleTuple stack settled]

theorem visibleIndexCandidateTid (stack : StackSound before levels)
    (restorable : Restorable ⟨before, levels⟩ count) :
    after.visibleIndexCandidateTid levels = before.visibleIndexCandidateTid levels := by
  funext tid
  simp only [RelationStorage.visibleIndexCandidateTid, unseen.resolveUpdateRedirect restorable,
    unseen.resolveTidRedirect restorable.settled,
    unseen.visibleTupleSlice stack restorable.settled]

theorem primaryKeyOverlayLookup (stack : StackSound before levels) (settled : Settled before levels)
    (zero : count' = 0 ↔ count = 0) (key : IndexKey) :
    after.primaryKeyOverlayLookup levels count' key =
      before.primaryKeyOverlayLookup levels count key := by
  simp only [RelationStorage.primaryKeyOverlayLookup, unseen.findVisibleTuple stack settled, zero]

/-- Where a change is not seen, the levels find by key what they found before. -/
theorem lookups (stack : StackSound before levels) (stack' : StackSound after levels)
    (restorable : Restorable ⟨before, levels⟩ count) (zero : count' = 0 ↔ count = 0) :
    SameLookups (⟨before, levels⟩, count) (⟨after, levels⟩, count') where
  key := by
    intro key
    have overlay := unseen.primaryKeyOverlayLookup stack restorable.settled zero key
    have hit := (unseen.sight stack restorable.settled).key key
    simp only [primaryKeyIndexLookup, overlay]
    split
    · rfl
    · rfl
    · exact hit
  keyWithSpec := by
    intro spec key
    have overlay := unseen.primaryKeyOverlayLookup stack restorable.settled zero key
    have hit := (unseen.sight stack restorable.settled).key key
    -- The scan reads the relations as the lookups leave them.
    have looked : ∀ relation, Local.Moves ⟨[], none⟩ ⟨relation, levels⟩
        ⟨(relation.primaryKeyLookup levels key).1, levels⟩ :=
      fun relation => (@Local.primaryKeyLookup_compresses ⟨relation, levels⟩ key).moves
    have compressed := (looked before).unseen stack levels
    have compressed' := unseen.trans ((looked after).unseen stack' levels)
    have scan := (compressed'.findVisibleByScan stack restorable.settled
      { spec with isPrimary := false } key none).trans
      (compressed.findVisibleByScan stack restorable.settled
        { spec with isPrimary := false } key none).symm
    unfold primaryKeyIndexLookupWithSpec
    rw [overlay]
    cases before.primaryKeyOverlayLookup levels count key with
    | found | hidden => rfl
    | missing =>
      dsimp only at hit scan ⊢
      cases first : before.primaryKeyLookup levels key with
      | mk relation result =>
        cases second : after.primaryKeyLookup levels key with
        | mk relation' result' =>
          rw [first, second] at hit scan
          cases hit
          cases result with
          | some tid => rfl
          | none => exact scan
  index := by
    intro indexRelid key maxTids
    simp only [RelationStorage.indexPrefixLookup, RelationStorage.indexPrefixMatches,
      unseen.visibleIndexCandidateTid stack restorable, unseen.indexes, zero]

end

end Unseen

/-! ## Starting a transaction -/

variable {a b : Overlays} {relation : RelationStorage}

/-- A level that holds nothing is not seen. -/
theorem Alike.started : Alike [] [{}] := by
  refine ⟨?_, ?_, rfl, ?_, ?_, ?_, fun before => ?_, ?_, by simp⟩ <;> funext tid <;> rfl

theorem started_sight (relation : RelationStorage) : SameSight ⟨relation, []⟩ ⟨relation, [{}]⟩ where
  fetch := fun tid => congrArg Prod.snd (Alike.started.fetchTid relation tid)
  fetchAt := fun tid => congrFun (congrFun (Alike.started.visibleTupleSliceAtCid relation) tid)
  tids := Alike.started.visibleTids relation
  key := fun _ => rfl

theorem Alike.findVisibleTuple (alike : Alike a b) (relation : RelationStorage) :
    relation.findVisibleTuple b = relation.findVisibleTuple a := by
  funext tid
  simp only [RelationStorage.findVisibleTuple, RelationStorage.visibleTupleSlice,
    alike.resolveTidRedirect, alike.physicalVisibleTupleSlice]

theorem Alike.findVisibleByScan (alike : Alike a b) (relation : RelationStorage)
    (spec : UniqueIndexSpec) (key : IndexKey) (replacing : Option Tid) :
    relation.findVisibleByScan b spec key replacing =
      relation.findVisibleByScan a spec key replacing := by
  simp only [RelationStorage.findVisibleByScan, alike.visibleTids, alike.findVisibleTuple]

theorem Alike.visibleIndexCandidateTid (alike : Alike a b) (relation : RelationStorage) :
    relation.visibleIndexCandidateTid b = relation.visibleIndexCandidateTid a := by
  funext tid
  simp only [RelationStorage.visibleIndexCandidateTid, RelationStorage.visibleTupleSlice,
    alike.resolveTidRedirect, alike.resolveUpdateRedirect, alike.physicalVisibleTupleSlice]

theorem started_lookups (relation : RelationStorage) (count : Nat) :
    SameLookups (⟨relation, []⟩, count) (⟨relation, [{}]⟩, count) := by
  have missing : ∀ key, relation.primaryKeyOverlayLookup [] count key = .missing ∧
      relation.primaryKeyOverlayLookup [{}] count key = .missing := by
    intro key
    constructor <;> simp [primaryKeyOverlayLookup, overlayLookup]
  have same : ∀ key, relation.primaryKeyLookup [{}] key = relation.primaryKeyLookup [] key :=
    fun _ => rfl
  refine ⟨fun key => ?_, fun spec key => ?_, fun indexRelid key maxTids => ?_⟩
  · simp only [primaryKeyIndexLookup, missing, same]
  · unfold primaryKeyIndexLookupWithSpec
    simp only [missing, same]
    cases relation.primaryKeyLookup [] key with
    | mk compressed result =>
      cases result with
      | some tid => rfl
      | none => exact Alike.started.findVisibleByScan compressed _ key none
  · simp [RelationStorage.indexPrefixLookup, RelationStorage.indexPrefixMatches,
      Overlays.indexPrefixMatches, Overlays.indexEntries,
      Alike.started.visibleIndexCandidateTid relation]

theorem Restorable.started {count : Nat} (restorable : Restorable ⟨relation, []⟩ count) :
    Restorable ⟨relation, [{}]⟩ count := by
  have redirect : tidRedirect [{}] = tidRedirect [] := Alike.started.redirect
  have update : updateRedirect [{}] = updateRedirect [] := Alike.started.update
  have next := Alike.started.hotNext relation
  refine ⟨⟨?_, ?_, ?_⟩, ?_, ?_, restorable.counted⟩
  · dsimp only
    rw [redirect]
    exact restorable.settled.apart
  · dsimp only
    rw [next]
    exact restorable.settled.ends
  · dsimp only
    rw [Alike.started.physicalVisibleTupleSliceAtCid]
    exact restorable.settled.retired
  · dsimp only
    rw [update]
    exact restorable.updateApart
  · dsimp only [updateNext]
    rw [update]
    exact restorable.updateEnds

/-! ## The rollback -/

theorem Backed.begin {outer : Overlays} {count : Nat}
    (stack : StackSound relation outer) (orderly : Overlays.Orderly outer) :
    Backed relation outer count relation [] count :=
  ⟨stack.sound, stack, orderly, .refl stack.sound, trivial, fun _ => .inl rfl⟩

/-- With nothing left of a subtransaction, its session sees and finds what it
    did at the begin. -/
theorem Backed.sight {start : RelationStorage} {outer : Overlays} {count count' : Nat}
    (backed : Backed start outer count relation [] count') (stack : StackSound start outer)
    (restorable : Restorable ⟨start, outer⟩ count) :
    SameSight ⟨start, outer⟩ ⟨relation, outer⟩ ∧
      SameLookups (⟨start, outer⟩, count) (⟨relation, outer⟩, count') := by
  have zero : count' = 0 ↔ count = 0 := by
    rcases backed.counted (by simp [Uncleared]) with same | refreshed
    · rw [same]
    · rw [refreshed, backed.sound.counted, restorable.counted, List.length_eq_zero_iff]
  exact ⟨backed.base.sight stack restorable.settled,
    backed.base.lookups stack backed.stack restorable zero⟩

namespace Engine

variable {catalog : Catalog} {engine : Engine}

theorem begun_ready {begun : Engine} {sid : SessionId} (kept : Kept engine)
    (began : step catalog engine ⟨sid, .call .subxactBegin⟩ = some begun) : Ready begun sid := by
  have levels : ∀ relid, begun.storage.overlays sid relid =
      {} :: (engine.storage.localView sid relid).ensureTransaction.overlays := fun relid =>
    congrArg (fun reached => reached.1.overlays) (reach_subxactBegin began relid)
  have relations : ∀ relid, begun.storage.relations relid = engine.storage.relations relid :=
    fun relid => congrArg (fun reached => reached.1.relation) (reach_subxactBegin began relid)
  refine ⟨fun nothing => ?_, fun relid => ?_⟩
  · have empty := levels 0
    rw [StorageState.overlays, nothing] at empty
    cases empty
  · have started := (@Writes.start (engine.storage.localView sid relid)
      ((kept.shared relid).levels sid)).stack
    rw [Local.ensureTransaction_relation] at started
    rw [levels, relations]
    exact ⟨Idle.emptyLevel started.sound _, started⟩

/-- A rolled back subtransaction leaves nothing but the outer levels. -/
theorem undone_backed {begun worked undone : Engine} {sid : SessionId} (kept : Kept engine)
    (began : step catalog engine ⟨sid, .call .subxactBegin⟩ = some begun)
    (inside : Inside catalog sid begun worked)
    (aborted : step catalog worked ⟨sid, .call .subxactAbort⟩ = some undone) (relid : Relid) :
    let outer := (engine.storage.localView sid relid).ensureTransaction.overlays
    (undone.reach sid relid).1.overlays = outer ∧
      StackSound (engine.storage.relations relid) outer ∧
      Backed (engine.storage.relations relid) outer (engine.rowCounts relid)
        (undone.reach sid relid).1.relation [] (undone.reach sid relid).2 := by
  intro outer
  have stack : StackSound (engine.storage.relations relid) outer := by
    have started := (@Writes.start (engine.storage.localView sid relid)
      ((kept.shared relid).levels sid)).stack
    rwa [Local.ensureTransaction_relation] at started
  have orderly : Overlays.Orderly outer :=
    Local.ensureTransaction_orderly (kept.orderly relid sid)
  have span := inside.span (begun_ready kept began) relid
  rw [reach_subxactBegin began relid] at span
  obtain ⟨top, rest, length, levels, backed⟩ := @Span.backed (engine.storage.relations relid) {} []
    outer (engine.rowCounts relid) _ _ span rfl (Backed.begin stack orderly).push
  cases List.eq_nil_of_length_eq_zero length
  have nonempty : outer ≠ [] := by
    unfold outer Local.ensureTransaction
    split
    · simp
    · next present => simp [present]
  obtain ⟨parent, more, split⟩ := List.exists_cons_of_ne_nil nonempty
  have deep : worked.storage.overlays sid relid = top :: parent :: more := by
    rw [← split]
    exact levels
  rw [reach_subxactAbort aborted deep]
  exact ⟨split.symm, stack, backed.undo⟩

/-- Rolling back to a savepoint restores what the session sees and finds, if
    redirects are settled and the row count tells whether the relation is empty. -/
theorem rollback_restores_sight {catalog : Catalog} {engine begun worked undone : Engine}
    {sid : SessionId} (reached : Reaches (step catalog) Respects .initial engine)
    (began : step catalog engine ⟨sid, .call .subxactBegin⟩ = some begun)
    (inside : Inside catalog sid begun worked)
    (aborted : step catalog worked ⟨sid, .call .subxactAbort⟩ = some undone) {relid : Relid}
    (restorable : Restorable (engine.storage.localView sid relid) (engine.rowCounts relid)) :
    SameSight (engine.storage.localView sid relid) (undone.storage.localView sid relid) ∧
      SameLookups (engine.reach sid relid) (undone.reach sid relid) := by
  obtain ⟨outer, stack, backed⟩ := undone_backed (reaches_kept reached) began inside aborted relid
  have after : undone.reach sid relid = (⟨(undone.reach sid relid).1.relation,
      (engine.storage.localView sid relid).ensureTransaction.overlays⟩,
      (undone.reach sid relid).2) := by
    rw [← outer]
  have view : undone.storage.localView sid relid = (undone.reach sid relid).1 := rfl
  rw [view, after]
  have here : engine.reach sid relid = (engine.storage.localView sid relid,
    engine.rowCounts relid) := rfl
  rw [here]
  rw [StorageState.localView] at restorable stack backed ⊢
  generalize engine.storage.overlays sid relid = levels at restorable stack backed ⊢
  cases levels with
  | nil =>
    -- The subtransaction has started a transaction, which stays open.
    obtain ⟨sight, lookups⟩ := backed.sight stack restorable.started
    exact ⟨(started_sight _).trans sight, (started_lookups _ _).trans lookups⟩
  | cons top rest => exact backed.sight stack restorable

/-! ## Two runs -/

def respects (sids : List SessionId) (engine : Engine) (request : Request) : Bool :=
  match request.action with
  | .call call => respectsClears sids engine.storage ⟨request.sid, call⟩
  | .replaceFrom dst _ => respectsClears sids engine.storage ⟨request.sid, .clear dst⟩

variable {sids : List SessionId} {request : Request}

theorem respects_sound (within : Within sids engine.storage)
    (checked : respects sids engine request = true) :
    Respects engine request := by
  obtain ⟨sid, action⟩ := request
  cases action <;> exact respectsClears_sound within checked

theorem within_step {engine' : Engine} (within : Within sids engine.storage)
    (checked : respects sids engine request = true)
    (taken : step catalog engine request = some engine') : Within sids engine'.storage := by
  obtain ⟨sid, action⟩ := request
  cases action with
  | call call =>
    obtain ⟨storage, stepped, rfl⟩ := Option.map_eq_some_iff.mp taken
    exact within.step (respectsClears_listed checked) stepped
  | replaceFrom dst src =>
    have listed : sid ∈ sids := respectsClears_listed checked
    cases taken
    intro other outside
    have ne : other ≠ sid := fun same => outside (same ▸ listed)
    rw [← within other outside]
    exact congrArg SessionStorage.stack (if_neg ne)

theorem reaches_of_checked (sids : List SessionId) {requests : List Request}
    (admitted : admits (step catalog) (respects sids) .initial requests = true)
    (ran : run (step catalog) .initial requests = some engine) :
    Reaches (step catalog) Respects .initial engine :=
  .of_run (fun _ _ _ (within : Within sids _) checked taken => within_step within checked taken)
    (fun _ _ within checked => respects_sound within checked) .refl (Within.initial sids) admitted ran

/-- A committed row, updated in an open transaction. -/
def openUpdate : List Request :=
  [⟨1, .call (.insert 7 [] .skip none false)⟩, ⟨1, .call .xactCommit⟩, ⟨1, .call .xactBegin⟩,
    ⟨1, .call (.update 7 ⟨0, 1⟩ [] .skip true none)⟩]

theorem rollback_restores_openUpdate : ∃ engine begun worked undone,
    run (step bareCatalog) .initial openUpdate = some engine ∧
      step bareCatalog engine ⟨1, .call .subxactBegin⟩ = some begun ∧
      Inside bareCatalog 1 begun worked ∧
      step bareCatalog worked ⟨1, .call .subxactAbort⟩ = some undone ∧
      SameSight (engine.storage.localView 1 7) (undone.storage.localView 1 7) ∧
      SameLookups (engine.reach 1 7) (undone.reach 1 7) := by
  obtain ⟨engine, ran⟩ : ∃ engine, run (step bareCatalog) .initial openUpdate = some engine :=
    ⟨_, rfl⟩
  obtain ⟨begun, began⟩ : ∃ begun,
      step bareCatalog engine ⟨1, .call .subxactBegin⟩ = some begun := ⟨_, rfl⟩
  -- An insert, a delete in a released savepoint, a clear and a replacement.
  obtain ⟨inserted, insert⟩ : ∃ inserted, step bareCatalog begun
      ⟨1, .call (.insert 7 [] .skip none false)⟩ = some inserted := ⟨_, rfl⟩
  obtain ⟨nested, nest⟩ : ∃ nested,
      step bareCatalog inserted ⟨1, .call .subxactBegin⟩ = some nested := ⟨_, rfl⟩
  obtain ⟨deleted, delete⟩ : ∃ deleted, step bareCatalog nested
      ⟨1, .call (.delete 7 ⟨0, 1⟩ false)⟩ = some deleted := ⟨_, rfl⟩
  obtain ⟨released, release⟩ : ∃ released,
      step bareCatalog deleted ⟨1, .call .subxactCommit⟩ = some released := ⟨_, rfl⟩
  obtain ⟨cleared, clear⟩ : ∃ cleared,
      step bareCatalog released ⟨1, .call (.clear 7)⟩ = some cleared := ⟨_, rfl⟩
  obtain ⟨worked, replace⟩ : ∃ worked,
      step bareCatalog cleared ⟨1, .replaceFrom 7 8⟩ = some worked := ⟨_, rfl⟩
  have inside : Inside bareCatalog 1 begun worked :=
    .replaceFrom (.call (.released (.call .done (by rfl) insert) nest
      (.call .done (by rfl) delete) release) (by rfl) clear) replace
  obtain ⟨undone, aborted⟩ : ∃ undone,
      step bareCatalog worked ⟨1, .call .subxactAbort⟩ = some undone := ⟨_, rfl⟩
  refine ⟨engine, begun, worked, undone, ran, began, inside, aborted, rollback_restores_sight
    (reaches_of_checked [1] (by decide) ran) began inside aborted ?_⟩
  have plain : (engine.storage.relations 7).hotRedirects = [] ∧
      (engine.storage.relations 7).updateRedirects = [] := by
    cases ran
    decide
  have levels : (engine.storage.overlays 1 7).map (fun overlay =>
      (overlay.hotRedirectInserts, overlay.updateRedirectInserts)) =
        [([(⟨0, 1⟩, ⟨0, 2⟩)], [(⟨0, 1⟩, ⟨0, 2⟩)])] := by
    cases ran
    decide
  have counted : engine.rowCounts 7 = 0 ↔ (engine.storage.relations 7).liveTids.elems = [] := by
    cases ran
    decide
  obtain ⟨overlay, only, redirects⟩ := List.map_eq_singleton_iff.mp levels
  rw [Prod.mk.injEq] at redirects
  have ends : ∀ tid, ∃ target, Ends (lookup [((⟨0, 1⟩ : Tid), (⟨0, 2⟩ : Tid))]) 1 tid target := by
    intro tid
    by_cases updated : tid = ⟨0, 1⟩
    · subst updated
      exact ⟨⟨0, 2⟩, .hop rfl (.stop rfl)⟩
    · exact ⟨tid, .stop (by simp [lookup_cons, Ne.symm updated])⟩
  have next : (engine.storage.relations 7).hotNext (engine.storage.overlays 1 7) =
      lookup [(⟨0, 1⟩, ⟨0, 2⟩)] := by
    funext tid
    simp [hotNext, orElse, tidRedirect, only, redirects, plain]
  have updates : (engine.storage.relations 7).updateNext (engine.storage.overlays 1 7) =
      lookup [(⟨0, 1⟩, ⟨0, 2⟩)] := by
    funext tid
    simp [updateNext, orElse, updateRedirect, only, redirects, plain]
  have within : ∀ {more : Nat}, 1 ≤ more → ∀ tid, ∃ target,
      Ends (lookup [((⟨0, 1⟩ : Tid), (⟨0, 2⟩ : Tid))]) more tid target := fun enough tid =>
    (ends tid).imp fun _ short => short.mono enough
  refine ⟨⟨by simp [StorageState.localView, plain], ?_, by simp [StorageState.localView, plain]⟩,
    by simp [StorageState.localView, plain], ?_, counted⟩
  · dsimp only [StorageState.localView]
    rw [next]
    exact within (by simp [maxHotRedirectHops])
  · dsimp only [StorageState.localView]
    rw [updates]
    exact within (by simp [maxHotRedirectHops])

/-- A clear that publishes the redirects of the rows it took away, and leaves
    the cached row count as it was; then a row in the place of an updated one. -/
def clearedWithCount : List Request :=
  [⟨1, .call (.insert 7 [] .skip none false)⟩, ⟨1, .call .xactCommit⟩, ⟨1, .call .xactBegin⟩,
    ⟨1, .call (.update 7 ⟨0, 1⟩ [] .skip true none)⟩, ⟨1, .call (.clear 7)⟩,
    ⟨1, .call .xactCommit⟩, ⟨1, .call .xactBegin⟩, ⟨1, .call (.insert 7 [] .skip none false)⟩,
    ⟨1, .call (.recordPrimaryKeyEntry 7 (.parts []) ⟨0, 1⟩)⟩,
    ⟨1, .call (.recordIndexEntries 7 11 [.parts []] ⟨0, 1⟩)⟩]

/-- A relation with a unique index: its rows stay in pages of their session. -/
def uniqueCatalog : Catalog := fun _ => ⟨[⟨9, false, false, []⟩], none⟩

/-- The rollback of a clear refreshes the count, and lookups then find the row
    that the published redirect hid before. -/
theorem rollback_finds_row : ∃ engine begun worked undone,
    Reaches (step uniqueCatalog) Respects .initial engine ∧
      run (step uniqueCatalog) .initial clearedWithCount = some engine ∧
      step uniqueCatalog engine ⟨1, .call .subxactBegin⟩ = some begun ∧
      Inside uniqueCatalog 1 begun worked ∧
      step uniqueCatalog begun ⟨1, .call (.clear 7)⟩ = some worked ∧
      step uniqueCatalog worked ⟨1, .call .subxactAbort⟩ = some undone ∧
      ((engine.storage.relations 7).primaryKeyIndexLookup (engine.storage.overlays 1 7)
        (engine.rowCounts 7) (.parts [])).2 = none ∧
      ((undone.storage.relations 7).primaryKeyIndexLookup (undone.storage.overlays 1 7)
        (undone.rowCounts 7) (.parts [])).2 = some ⟨0, 1⟩ ∧
      (engine.storage.relations 7).indexPrefixLookup (engine.storage.overlays 1 7)
        (engine.rowCounts 7) 11 (.parts []) 1 = none ∧
      (undone.storage.relations 7).indexPrefixLookup (undone.storage.overlays 1 7)
        (undone.rowCounts 7) 11 (.parts []) 1 = some [⟨0, 1⟩] := by
  obtain ⟨engine, ran⟩ : ∃ engine,
      run (step uniqueCatalog) .initial clearedWithCount = some engine := ⟨_, rfl⟩
  obtain ⟨begun, began⟩ : ∃ begun,
      step uniqueCatalog engine ⟨1, .call .subxactBegin⟩ = some begun := ⟨_, rfl⟩
  obtain ⟨worked, cleared⟩ : ∃ worked,
      step uniqueCatalog begun ⟨1, .call (.clear 7)⟩ = some worked := ⟨_, rfl⟩
  obtain ⟨undone, aborted⟩ : ∃ undone,
      step uniqueCatalog worked ⟨1, .call .subxactAbort⟩ = some undone := ⟨_, rfl⟩
  refine ⟨engine, begun, worked, undone, reaches_of_checked [1] (by decide) ran, ran, began,
    .call .done (by rfl) cleared, cleared, aborted, ?_⟩
  cases ran
  cases began
  cases cleared
  cases aborted
  decide

end Engine

end FastPg.Storage
