import FastPg.Storage.Exclusive
import FastPg.Storage.Reading

/-! # Aborting among other sessions

A ledger runs alongside the storage: for each relation the rows that everyone
saw right after the last step that published something there. An abort should
take every other session back to the ledger. It does where clears are exclusive
and no committed row lies past a page checkpoint when a clear saves the
relation; the saved relation loses such a row.
-/

namespace FastPg.Storage

open Assoc Transition Option RelationStorage RelationOverlay Overlays
open List hiding insert lookup

/-- The relation a whole rollback ends with: what the outermost clear saved. -/
def baseRelation : RelationStorage → Overlays → RelationStorage
  | relation, [] => relation
  | relation, overlay :: outer => baseRelation (overlay.clearedRelation.getD relation) outer

/-- Two relations with the same live rows. -/
def SameLive (a b : RelationStorage) : Prop :=
  ∀ tid bytes, a.row tid = some (.live, bytes) ↔ b.row tid = some (.live, bytes)

variable {a b relation : RelationStorage} {overlays : Overlays} {tid : Tid} {view : View}
  {rows : List (Tid × Bytes)} {sid : SessionId} {after : StorageState × Ledger} {catalog : Catalog}

theorem SameLive.refl : SameLive a a := fun _ _ => Iff.rfl

theorem SameLive.trans {c : RelationStorage} (first : SameLive a b) (second : SameLive b c) :
    SameLive a c := fun tid bytes => (first tid bytes).trans (second tid bytes)

theorem SameLive.symm (same : SameLive a b) : SameLive b a :=
  fun tid bytes => (same tid bytes).symm

theorem baseRelation_live (same : SameLive a b) (overlays : Overlays) :
    SameLive (baseRelation a overlays) (baseRelation b overlays) := by
  induction overlays generalizing a b with
  | nil => exact same
  | cons overlay outer ih =>
    apply ih
    cases overlay.clearedRelation with
    | none => exact same
    | some snapshot => exact .refl

theorem baseRelation_uncleared (uncleared : Uncleared overlays)
    (relation : RelationStorage) : baseRelation relation overlays = relation := by
  induction overlays with
  | nil => rfl
  | cons overlay outer ih =>
    rw [baseRelation, clearedRelation_of_not_cleared uncleared.head]
    exact ih uncleared.tail

/-- A whole rollback ends with the live rows of the base. -/
theorem rollbackAll_live (stack : StackSound relation overlays) :
    SameLive (Local.rollbackAll relation overlays) (baseRelation relation overlays) := by
  induction overlays generalizing relation with
  | nil => exact .refl
  | cons top outer ih =>
    have inner := ih (Local.rollbackOverlay_stack stack)
    have level : SameLive (Local.rollbackOverlay relation top)
        (top.clearedRelation.getD relation) := Local.rollbackOverlay_live stack
    exact inner.trans (baseRelation_live level outer)

/-- Without a clear, only inserted rows change. -/
theorem rollbackAll_row
    (stack : StackSound relation overlays) (uncleared : Uncleared overlays)
    (other : tid ∉ inserted overlays) :
    (Local.rollbackAll relation overlays).row tid = relation.row tid := by
  induction overlays generalizing relation with
  | nil => rfl
  | cons top outer ih =>
    rw [mem_inserted_cons, not_or] at other
    have kept := (Local.rollbackOverlay_spec stack.sound uncleared.head).2 tid other.1
    rw [← kept]
    exact ih (Local.rollbackOverlay_stack stack) uncleared.tail fun mem =>
      other.2 ⟨uncleared.head, mem⟩

/-! ## The ledger -/

/-- Whether a call published changes of a relation: it ended a transaction that
    had some, or cleared the relation outside a transaction. -/
def publishes (sid : SessionId) (call : Call) (relid : Relid) (before after : View) : Bool :=
  match call with
  | .xactCommit | .xactCommitIfImplicit | .xactBegin =>
    !(before.levels sid).all RelationOverlay.isEmpty &&
      (after.levels sid).all RelationOverlay.isEmpty
  | .clear target => target = relid && (before.levels sid).isEmpty
  | _ => false

/-- Rows to keep on the ledger after a call. -/
def ledgerRows (sid : SessionId) (call : Call) (relid : Relid) (before after : View)
    (rows : List (Tid × Bytes)) : List (Tid × Bytes) :=
  if publishes sid call relid before after then after.relation.visibleRows [] else rows

abbrev Ledger := Relid → List (Tid × Bytes)

/-- One call, with the ledger kept. -/
def ledgerStep (catalog : Catalog) (before : StorageState × Ledger) (event : Event) :
    Option (StorageState × Ledger) :=
  (step catalog before.1 event).map fun state =>
    (state, fun relid =>
      ledgerRows event.sid event.call relid (before.1.view relid) (state.view relid)
        (before.2 relid))

/-- Where a clear saves a relation for rollback, no committed row lies past a
    page checkpoint of the saving level. -/
structure CoversRows (state : StorageState) (event : Event) : Prop where
  clear : ∀ relid top outer, event.call = .clear relid →
    state.overlays event.sid relid = top :: outer → top.clearedRelation = none →
    top.CheckpointsCover (state.relations relid)
  release : ∀ relid child parent outer snapshot, event.call = .subxactCommit →
    state.overlays event.sid relid = child :: parent :: outer →
    child.clearedRelation = some snapshot → parent.clearedRelation = none →
    parent.CheckpointsCover snapshot

/-- The condition on the steps of a run. -/
def Orderly (before : StorageState × Ledger) (event : Event) : Prop :=
  RespectsClears before.1 event ∧ CoversRows before.1 event

/-- The ledger of a relation holds the live rows a rollback would leave. -/
def LedgerHolds (view : View) (rows : List (Tid × Bytes)) : Prop :=
  ∀ sid, (∀ other, other ≠ sid → Overlays.holdsClear (view.levels other) = false) →
    ∀ tid bytes, (tid, bytes) ∈ rows ↔
      (baseRelation view.relation (view.levels sid)).row tid = some (.live, bytes)

variable {outer : Overlays} {call : Call} {relid : Relid}

theorem baseRelation_held (held : holdsClear overlays = true)
    (a b : RelationStorage) : baseRelation a overlays = baseRelation b overlays := by
  induction overlays generalizing a b with
  | nil => cases held
  | cons overlay outer ih =>
    unfold baseRelation
    cases saved : overlay.clearedRelation with
    | some snapshot => rfl
    | none =>
      apply ih
      simpa [holdsClear, cleared, saved] using held

/-- A turn of a session keeps the ledger if it keeps the live rows that its own
    rollback would leave. -/
theorem LedgerHolds.put {here : Local} (holds : LedgerHolds view rows) (shared : Shared view)
    (own : (∀ other, other ≠ sid → holdsClear (view.levels other) = false) →
      SameLive (baseRelation here.relation here.overlays)
        (baseRelation view.relation (view.levels sid))) :
    LedgerHolds (view.put sid here) rows := by
  have mine : (∀ other, other ≠ sid → holdsClear (view.levels other) = false) →
      ∀ tid bytes, (tid, bytes) ∈ rows ↔
        (baseRelation here.relation here.overlays).row tid = some (.live, bytes) := by
    intro alone tid bytes
    rw [holds sid alone, own alone]
  intro a alone tid bytes
  by_cases same : a = sid
  · subst same
    rw [View.put_levels_self]
    apply mine
    intro other ne
    have clear := alone other ne
    rwa [View.put_levels_other view here ne] at clear
  · have sidClear := alone sid (Ne.symm same)
    rw [View.put_levels_self] at sidClear
    rw [View.put_levels_other view here same, View.put_relation]
    cases held : holdsClear (view.levels a) with
    | true =>
      -- The relation underneath does not matter: the rollback ends in the saved one.
      rw [baseRelation_held held here.relation view.relation]
      apply holds a
      intro other ne
      exact (shared.exclusive a other (Ne.symm ne) held).holdsClear
    | false =>
      rw [baseRelation_uncleared (uncleared_of_holdsClear held),
        ← baseRelation_uncleared (uncleared_of_holdsClear sidClear) here.relation]
      apply mine
      intro other ne
      by_cases isA : other = a
      · rw [isA, held]
      · have clear := alone other isA
        rwa [View.put_levels_other view here ne] at clear

/-- Where nobody holds a clear, the ledger may be read off the relation. -/
theorem LedgerHolds.refresh (shared : Shared view)
    (clear : ∀ sid, holdsClear (view.levels sid) = false) :
    LedgerHolds view (view.relation.visibleRows []) := by
  intro sid _ tid bytes
  rw [baseRelation_uncleared (uncleared_of_holdsClear (clear sid))]
  exact mem_visibleRows_nil (shared.levels sid).sound

theorem reshaped_base {here here' : Local} (writes : Writes here here') :
    SameLive (baseRelation here'.relation here'.overlays)
      (baseRelation here.relation here.overlays) := by
  have live : SameLive here'.relation here.relation := writes.grows.live
  obtain ⟨relation, overlays⟩ := here
  obtain ⟨relation', overlays'⟩ := here'
  rcases writes.shape with same | ⟨empty, top, single, uncleared⟩ | ⟨top, top', outer, old, new, kept⟩
  · dsimp only at same
    subst same
    exact baseRelation_live live overlays'
  · dsimp only at empty single
    subst empty single
    simpa [baseRelation, uncleared] using live
  · dsimp only at old new
    subst old new
    unfold baseRelation
    rw [kept]
    apply baseRelation_live
    cases top.clearedRelation with
    | none => exact live
    | some snapshot => exact .refl

theorem restore_live {overlay : RelationOverlay} (sound : relation.Sound)
    (checkpointed : overlay.relationCheckpoint = none → overlay.pageCheckpoints = [])
    (cover : overlay.CheckpointsCover relation) :
    SameLive (overlay.restoreRelationSnapshot relation) relation := fun _ _ =>
  ⟨(restoreRelationSnapshot_kills sound checkpointed).live,
    restoreRelationSnapshot_live cover⟩

theorem clear_base {top : RelationOverlay} (catalog : RelationCatalog) (shared : Shared view)
    (levels : view.levels sid = top :: outer)
    (cover : top.clearedRelation = none → top.CheckpointsCover view.relation) :
    SameLive (baseRelation ((view.reach sid).clear catalog false).relation
        ((view.reach sid).clear catalog false).overlays)
      (baseRelation view.relation (view.levels sid)) := by
  have stack := shared.levels sid
  rw [levels] at stack
  obtain ⟨top', cleared, -, saved, -⟩ := Local.clear_spec catalog false stack
  have here : view.reach sid = ⟨view.relation, top :: outer⟩ := by simp [View.reach, levels]
  rw [here, cleared, levels]
  simp only [baseRelation, saved, getD_some]
  apply baseRelation_live
  cases earlier : top.clearedRelation with
  | some first => exact .refl
  | none => exact restore_live stack.sound stack.1.checkpointed (cover earlier)

theorem release_base {child parent : RelationOverlay}
    (stack : StackSound relation (child :: parent :: outer))
    (cover : ∀ snapshot, child.clearedRelation = some snapshot → parent.clearedRelation = none →
      parent.CheckpointsCover snapshot) :
    SameLive (baseRelation relation (parent.appendFrom child :: outer))
      (baseRelation relation (child :: parent :: outer)) := by
  simp only [baseRelation]
  rw [appendFrom_clearedRelation]
  apply baseRelation_live
  cases earlier : parent.clearedRelation with
  | some first => exact .refl
  | none =>
    cases saved : child.clearedRelation with
    | none => exact .refl
    | some snapshot =>
      have inner := stack.2
      rw [saved] at inner
      exact restore_live inner.1.sound inner.1.checkpointed (cover snapshot saved earlier)

theorem ledgerRows_kept {before after : View}
    (quiet : publishes sid call relid before after = false) (rows : List (Tid × Bytes)) :
    ledgerRows sid call relid before after rows = rows := by
  simp [ledgerRows, quiet]

/-- A clear call that publishes at once leaves nobody holding a clear. -/
theorem LedgerHolds.of_clear {before after : View} (shared : Shared after)
    (others : ∀ other, other ≠ sid → Idle (before.levels other))
    (keeps : ∀ other, other ≠ sid → after.levels other = before.levels other)
    (own : holdsClear (after.levels sid) = false) :
    LedgerHolds after (after.relation.visibleRows []) := by
  apply LedgerHolds.refresh shared
  intro other
  by_cases same : other = sid
  · rw [same, own]
  · rw [keeps other same]
    exact (others other same).holdsClear

/-- A turn that keeps the ledger and ends no changes. -/
theorem LedgerHolds.still {before after : View} (holds : LedgerHolds after rows)
    (shared : Shared after)
    (taken : call = .clear relid → ∀ other, other ≠ sid → Idle (before.levels other))
    (keeps : ∀ other, other ≠ sid → after.levels other = before.levels other)
    (idle : Idle (after.levels sid) → Idle (before.levels sid))
    (own : before.levels sid = [] → holdsClear (after.levels sid) = false) :
    LedgerHolds after (ledgerRows sid call relid before after rows) := by
  unfold ledgerRows
  split
  next published =>
    have ended : ¬(!(before.levels sid).all isEmpty &&
        (after.levels sid).all isEmpty) = true := by
      rw [Bool.and_eq_true, idle_iff_all_isEmpty]
      rintro ⟨busy, left⟩
      rw [idle_iff_all_isEmpty.mpr (idle left)] at busy
      cases busy
    cases call with
    | xactCommit | xactCommitIfImplicit | xactBegin => exact absurd published ended
    | clear target =>
      obtain ⟨same, fresh⟩ := Bool.and_eq_true_iff.mp published
      obtain rfl := of_decide_eq_true same
      exact .of_clear shared (taken rfl) keeps (own (isEmpty_iff.mp fresh))
    | _ => cases published
  next => exact holds

theorem publishes_row {f : Local → Local} (on : call.onRelation catalog = some (relid, f))
    (notClear : call ≠ .clear relid) (before after : View) :
    publishes sid call relid before after = false := by
  cases call with
  | xactCommit | xactCommitIfImplicit | xactBegin => cases on
  | clear target =>
    cases on
    exact absurd rfl notClear
  | _ => rfl

/-- The ledger follows every effect, if clears are respected and cover the rows. -/
theorem Effect.ledger {view' : View} (effect : Effect catalog relid sid call view view')
    (shared : Shared view) (shared' : Shared view')
    (taken : call = .clear relid → ∀ other, other ≠ sid → Idle (view.levels other))
    (clearCovers : ∀ top outer, call = .clear relid → view.levels sid = top :: outer →
      top.clearedRelation = none → top.CheckpointsCover view.relation)
    (releaseCovers : ∀ child parent outer snapshot, call = .subxactCommit →
      view.levels sid = child :: parent :: outer → child.clearedRelation = some snapshot →
      parent.clearedRelation = none → parent.CheckpointsCover snapshot)
    (holds : LedgerHolds view rows) :
    LedgerHolds view' (ledgerRows sid call relid view view' rows) := by
  cases effect with
  | rest =>
    apply holds.still shared taken (fun _ _ => rfl) id
    intro fresh
    rw [fresh]
    rfl
  | start fresh =>
    have started : LedgerHolds (view.put sid ⟨view.relation, [{}]⟩) rows := by
      apply holds.put shared
      rw [fresh]
      exact fun _ => .refl
    apply started.still shared' taken (fun _ => View.put_levels_other view _)
    · rw [fresh]
      exact fun _ _ mem => by cases mem
    · rw [View.put_levels_self]
      exact fun _ => rfl
  | row on notClear =>
    rw [ledgerRows_kept (publishes_row on notClear _ _)]
    have stack := shared.levels sid
    have moves : Local.Moves (catalog relid) (view.reach sid) _ :=
      Call.onRelation_moves on notClear stack
    exact holds.put shared fun _ => reshaped_base (moves.writes stack)
  | clear =>
    cases levels : view.levels sid with
    | nil =>
      have published : publishes sid (.clear relid) relid view
          (view.put sid ((view.reach sid).clear (catalog relid) false)) = true := by
        simp [publishes, levels]
      unfold ledgerRows
      rw [if_pos published]
      apply LedgerHolds.of_clear shared' (taken rfl) fun _ => View.put_levels_other view _
      rw [View.put_levels_self]
      simp [View.reach, levels, Local.clear, holdsClear]
    | cons top outer =>
      have quiet : publishes sid (.clear relid) relid view
          (view.put sid ((view.reach sid).clear (catalog relid) false)) = false := by
        simp [publishes, levels]
      rw [ledgerRows_kept quiet]
      exact holds.put shared fun _ =>
        clear_base _ shared levels (clearCovers top outer rfl levels)
  | push =>
    rw [ledgerRows_kept rfl]
    apply holds.put shared
    intro _
    dsimp only
    unfold Local.ensureTransaction View.reach
    dsimp only
    split
    next fresh =>
      rw [fresh]
      exact .refl
    next => exact .refl
  | release levels =>
    rw [ledgerRows_kept rfl]
    have stack := shared.levels sid
    rw [levels] at stack
    apply holds.put shared
    rw [levels]
    exact fun _ => release_base stack fun snapshot saved earlier =>
      releaseCovers _ _ _ snapshot rfl levels saved earlier
  | undo levels =>
    rw [ledgerRows_kept rfl]
    have stack := shared.levels sid
    rw [levels] at stack
    apply holds.put shared
    rw [levels]
    exact fun _ => baseRelation_live (Local.rollbackOverlay_live stack) _
  | @drop _ _ outer left levels kept ends =>
    have dropped : LedgerHolds (view.put sid ⟨view.relation, left⟩) rows := by
      apply holds.put shared
      rw [levels]
      rcases kept with rfl | ⟨rfl, rfl⟩
      · exact fun _ => .refl
      · exact fun _ => .refl
    apply dropped.still shared' taken (fun _ => View.put_levels_other view _)
    · rw [View.put_levels_self, levels]
      rcases kept with rfl | ⟨rfl, rfl⟩
      · intro idle overlay mem
        rcases mem_cons.mp mem with rfl | inner
        · rfl
        · exact idle overlay inner
      · exact id
    · rw [levels]
      exact fun none => by cases none
  | @commit _ _ relation' left committed kept ends =>
    have leftIdle : Idle left := by
      rcases kept with rfl | rfl
      · exact fun _ mem => by cases mem
      · exact fun _ mem => mem_singleton.mp mem
    by_cases idle : Idle (view.levels sid)
    · have same : relation' = view.relation := by
        have unchanged : (view.reach sid).commitAll = some view.relation := idle.commitAll
        exact some.inj (committed.symm.trans unchanged)
      subst same
      have kept : LedgerHolds (view.put sid ⟨view.relation, left⟩) rows := by
        apply holds.put shared
        rw [baseRelation_uncleared (uncleared_of_holdsClear leftIdle.holdsClear),
          baseRelation_uncleared (uncleared_of_holdsClear idle.holdsClear)]
        exact fun _ => .refl
      apply kept.still shared' taken (fun _ => View.put_levels_other view _) fun _ => idle
      rw [View.put_levels_self]
      exact fun _ => leftIdle.holdsClear
    · have published : publishes sid call relid view (view.put sid ⟨relation', left⟩) = true := by
        have busy : (view.levels sid).all isEmpty = false := by
          rw [← Bool.not_eq_true, idle_iff_all_isEmpty]
          exact idle
        have done := idle_iff_all_isEmpty.mpr leftIdle
        rcases ends with rfl | rfl | rfl <;> simp [publishes, busy, done]
      unfold ledgerRows
      rw [if_pos published]
      apply LedgerHolds.refresh shared'
      intro other
      by_cases same : other = sid
      · rw [same, View.put_levels_self]
        exact leftIdle.holdsClear
      · rw [View.put_levels_other view _ same]
        -- Whoever held a clear would have kept this session from having changes.
        cases held : holdsClear (view.levels other) with
        | false => rfl
        | true => exact absurd (shared.exclusive other sid same held) idle
  | rollback ends =>
    rw [ledgerRows_kept (by rcases ends with rfl | rfl <;> rfl)]
    exact holds.put shared fun _ => rollbackAll_live (shared.levels sid)

/-- What holds in every state of an orderly run. -/
structure Accounted (before : StorageState × Ledger) : Prop where
  shared : AllShared before.1
  ledger : ∀ relid, LedgerHolds (before.1.view relid) (before.2 relid)

variable {before : StorageState × Ledger} {event : Event}

theorem accounted_initial : Accounted (.initial, fun _ => []) where
  shared := initial_shared
  ledger := fun _ _ _ _ _ => ⟨fun mem => (not_mem_nil mem).elim, fun live => by cases live⟩

theorem ledgerStep_eq (h : ledgerStep catalog before event = some after) :
    step catalog before.1 event = some after.1 ∧ ∀ relid, after.2 relid =
      ledgerRows event.sid event.call relid (before.1.view relid) (after.1.view relid)
        (before.2 relid) := by
  obtain ⟨state, taken, rfl⟩ := map_eq_some_iff.mp h
  exact ⟨taken, fun _ => rfl⟩

theorem accounted_step (accounted : Accounted before) (orderly : Orderly before event)
    (h : ledgerStep catalog before event = some after) : Accounted after := by
  obtain ⟨taken, rows⟩ := ledgerStep_eq h
  have shared' := step_shared accounted.shared orderly.1 taken
  refine ⟨shared', fun relid => ?_⟩
  rw [rows relid]
  exact (step_effect taken relid).ledger (accounted.shared relid) (shared' relid)
    (orderly.1.taken relid) (orderly.2.clear relid) (orderly.2.release relid)
    (accounted.ledger relid)

theorem reaches_accounted
    (reached : Reaches (ledgerStep catalog) Orderly (.initial, fun _ => []) after) :
    Accounted after :=
  reached.invariant accounted_initial fun _ _ _ accounted orderly taken =>
    accounted_step accounted orderly taken

/-- Whether no live row lies past a page checkpoint at a clear. A release is not
    admitted at all. -/
def coversRows (state : StorageState) (event : Event) : Bool :=
  match event.call with
  | .clear relid => (state.overlays event.sid relid).head?.all fun top =>
    top.pageCheckpoints.all fun entry => (state.relations relid).liveTids.elems.all fun tid =>
      tid.block != entry.1 || tid.offset ≤ entry.2.lineCount
  | .subxactCommit => false
  | _ => true

variable {events : List Event} (sids : List SessionId)

theorem coversRows_sound {state : StorageState} (shared : AllShared state)
    (checked : coversRows state event = true) : CoversRows state event := by
  obtain ⟨sid, call⟩ := event
  constructor
  · intro relid top outer clears levels _ entry mem offset bytes live
    dsimp only at clears levels
    subst clears
    have listed := (((shared relid).levels sid).sound.live ⟨entry.1, offset⟩).mpr ⟨bytes, live⟩
    have cover : top.pageCheckpoints.all (fun entry =>
        (state.relations relid).liveTids.elems.all fun tid =>
          tid.block != entry.1 || tid.offset ≤ entry.2.lineCount) = true := by
      simpa only [coversRows, levels, head?_cons, all_some] using checked
    have past := all_eq_true.mp (all_eq_true.mp cover entry mem) _ listed
    simpa using past
  · intro relid child parent outer snapshot releases
    dsimp only at releases
    subst releases
    cases checked

theorem Within.ledgerRun {sids : List SessionId} (within : Within sids before.1)
    (listed : ∀ event ∈ events, event.sid ∈ sids)
    (ran : run (ledgerStep catalog) before events = some after) : Within sids after.1 := by
  induction events generalizing before with
  | nil =>
    cases ran
    exact within
  | cons event rest ih =>
    obtain ⟨middle, taken, continued⟩ := bind_eq_some_iff.mp ran
    have next := within.step (listed event (mem_cons_self ..)) (ledgerStep_eq taken).1
    exact ih next (fun other mem => listed other (.tail _ mem)) continued

theorem reaches_orderly_of_run
    (admitted : admits (ledgerStep catalog)
      (fun before event => respectsClears sids before.1 event && coversRows before.1 event)
      (.initial, fun _ => []) events = true)
    (ran : run (ledgerStep catalog) (.initial, fun _ => []) events = some after) :
    Reaches (ledgerStep catalog) Orderly (.initial, fun _ => []) after := by
  have sound : ∀ before event, Accounted before ∧ Within sids before.1 →
      (respectsClears sids before.1 event && coversRows before.1 event) = true →
      Orderly before event := by
    rintro before event ⟨accounted, within⟩ checked
    obtain ⟨respects, covers⟩ := Bool.and_eq_true_iff.mp checked
    exact ⟨respectsClears_sound within respects, coversRows_sound accounted.shared covers⟩
  refine .of_run ?_ sound .refl ⟨accounted_initial, .initial sids⟩ admitted ran
  intro before event next inv checked taken
  have listed := respectsClears_listed (Bool.and_eq_true_iff.mp checked).1
  exact ⟨accounted_step inv.1 (sound before event inv checked) taken,
    inv.2.step listed (ledgerStep_eq taken).1⟩

/-- The same for a run whose clears need not cover the rows. -/
theorem reaches_respecting_of_run
    (admitted : admits (ledgerStep catalog) (fun before event => respectsClears sids before.1 event)
      (.initial, fun _ => []) events = true)
    (ran : run (ledgerStep catalog) (.initial, fun _ => []) events = some after) :
    Reaches (ledgerStep catalog) (fun before event => RespectsClears before.1 event)
      (.initial, fun _ => []) after := by
  have keeps : ∀ (before : StorageState × Ledger) event after, Within sids before.1 →
      respectsClears sids before.1 event = true → ledgerStep catalog before event = some after →
      Within sids after.1 := fun _ _ _ within checked taken =>
    within.step (respectsClears_listed checked) (ledgerStep_eq taken).1
  exact .of_run keeps (fun _ _ within => respectsClears_sound within) .refl (.initial sids)
    admitted ran

/-! ## What an abort leaves to the others -/

theorem StackSound.not_live_of_inserted
    (stack : StackSound relation overlays) (mine : tid ∈ inserted overlays)
    (bytes : Bytes) : relation.row tid ≠ some (.live, bytes) := by
  cases stack.placed mine with
  | inr shared => exact shared.2 bytes
  | inl paged =>
    intro live
    exact (stack.unfiled paged).1 (physical_of_row live)

/-- A session sees the live rows it did not invalidate, and rows of its own. -/
theorem RelationStorage.mem_visibleRows_split
    (stack : StackSound relation overlays) (uncleared : Uncleared overlays)
    {bytes : Bytes} :
    (tid, bytes) ∈ relation.visibleRows overlays ↔
      (relation.row tid = some (.live, bytes) ∧ ¬ invalidates overlays tid) ∨
        (tid ∈ inserted overlays ∧ (tid, bytes) ∈ relation.visibleRows overlays) := by
  obtain ⟨hidden, committed, -⟩ := physicalVisibleTupleSlice_of_uncleared relation uncleared tid
  constructor
  · intro seen
    by_cases mine : tid ∈ inserted overlays
    · exact .inr ⟨mine, seen⟩
    · obtain ⟨-, read⟩ := mem_visibleRows.mp seen
      have valid : ¬ invalidates overlays tid := by
        intro hit
        rw [hidden hit] at read
        cases read
      rw [committed valid mine, tupleSlice_live] at read
      exact .inl ⟨read, valid⟩
  · rintro (⟨live, valid⟩ | ⟨-, seen⟩)
    · have other : tid ∉ inserted overlays := fun mine =>
        stack.not_live_of_inserted mine bytes live
      refine mem_visibleRows.mpr ⟨.inl ((stack.sound.live tid).mpr ⟨bytes, live⟩), ?_⟩
      rw [committed valid other, tupleSlice_live]
      exact live
    · exact seen

theorem Overlays.exists_of_mem_inserted
    (mine : tid ∈ inserted overlays) : ∃ overlay ∈ overlays, tid ∈ overlay.insertedTids := by
  induction overlays with
  | nil => cases mine
  | cons overlay outer ih =>
    rcases mem_inserted_cons.mp mine with own | ⟨-, outside⟩
    · exact ⟨overlay, .head _, own⟩
    · obtain ⟨other, mem, listed⟩ := ih outside
      exact ⟨other, .tail _ mem, listed⟩

/-- A session reads its own rows alike in relations that agree on them. -/
theorem RelationStorage.mem_visibleRows_own (uncleared : Uncleared overlays)
    (mine : tid ∈ inserted overlays) (same : a.row tid = b.row tid) {bytes : Bytes}
    (seen : (tid, bytes) ∈ a.visibleRows overlays) : (tid, bytes) ∈ b.visibleRows overlays := by
  obtain ⟨hidden, -, own⟩ := physicalVisibleTupleSlice_of_uncleared a uncleared tid
  obtain ⟨-, -, own'⟩ := physicalVisibleTupleSlice_of_uncleared b uncleared tid
  obtain ⟨-, read⟩ := mem_visibleRows.mp seen
  have valid : ¬ invalidates overlays tid := by
    intro hit
    rw [hidden hit] at read
    cases read
  have slices : a.tupleSlice tid true = b.tupleSlice tid true := by
    rw [tupleSlice_eq, tupleSlice_eq, same]
  refine mem_visibleRows.mpr ⟨.inr (exists_of_mem_inserted mine), ?_⟩
  rw [own' valid mine, ← slices, ← own valid mine]
  exact read

/-- A rollback leaves the rows of another session as they were. -/
theorem Shared.rollback_own {other : SessionId} (shared : Shared view)
    (ne : other ≠ sid) (mine : tid ∈ inserted (view.levels other)) :
    (Local.rollbackAll view.relation (view.levels sid)).row tid = view.relation.row tid := by
  cases held : holdsClear (view.levels sid) with
  | true =>
    rw [(shared.exclusive sid other (Ne.symm ne) held).inserted] at mine
    cases mine
  | false =>
    exact rollbackAll_row (shared.levels sid) (uncleared_of_holdsClear held)
      (shared.apartRows other sid ne tid mine)

/-- **Aborts are exact.** In an orderly run an abort leaves every other session
    with the rows on the ledger that it did not invalidate itself, and with its
    own rows as it saw them before. -/
theorem abort_leaves_ledger_rows {catalog : Catalog} {state state' : StorageState} {ledger : Ledger}
    (reached : Reaches (ledgerStep catalog) Orderly (.initial, fun _ => []) (state, ledger))
    {sid other : SessionId} (aborted : step catalog state ⟨sid, .xactAbort⟩ = some state')
    (different : other ≠ sid) {relid : Relid}
    (unheld : ∀ third, third ≠ sid → Overlays.holdsClear (state.overlays third relid) = false)
    (tid : Tid) (bytes : Bytes) :
    (tid, bytes) ∈ (state'.relations relid).visibleRows (state'.overlays other relid) ↔
      ((tid, bytes) ∈ ledger relid ∧ ¬ Overlays.invalidates (state.overlays other relid) tid) ∨
        (tid ∈ Overlays.inserted (state.overlays other relid) ∧
          (tid, bytes) ∈ (state.relations relid).visibleRows (state.overlays other relid)) := by
  obtain ⟨allShared, holds⟩ := reaches_accounted reached
  have shared := allShared relid
  have uncleared := uncleared_of_holdsClear (unheld other different)
  have rolled : state'.view relid = (state.view relid).put sid
      ⟨Local.rollbackAll (state.relations relid) (state.overlays sid relid), []⟩ := by
    cases aborted
    exact (StorageState.view_setExplicit ..).trans (StorageState.view_rollbackAll ..)
  have shared' : Shared (state'.view relid) := rolled ▸ shared.rollback
  have relation : state'.relations relid =
      Local.rollbackAll (state.relations relid) (state.overlays sid relid) :=
    congrArg View.relation rolled
  have levels : state'.overlays other relid = state.overlays other relid :=
    (congrFun (congrArg View.levels rolled) other).trans (View.put_levels_other _ _ different)
  have stack : StackSound (state'.relations relid) (state.overlays other relid) :=
    levels ▸ shared'.levels other
  have live : (state'.relations relid).row tid = some (.live, bytes) ↔ (tid, bytes) ∈ ledger relid := by
    rw [relation]
    exact (rollbackAll_live (shared.levels sid) tid bytes).trans
      (holds relid sid unheld tid bytes).symm
  rw [levels, mem_visibleRows_split stack uncleared, live]
  apply or_congr Iff.rfl
  apply and_congr_right
  intro mine
  have same : (state'.relations relid).row tid = (state.relations relid).row tid := by
    rw [relation]
    exact shared.rollback_own different mine
  exact ⟨mem_visibleRows_own uncleared mine same,
    mem_visibleRows_own uncleared mine same.symm⟩

/-- A catalog of relations without columns and keys. -/
def bareCatalog : Catalog := fun _ => ⟨[], none⟩

/-- A session inserts, clears and inserts again over a row of another session. -/
def clearOverCommitted : List Event :=
  [⟨2, .xactBegin⟩, ⟨2, .insert 7 [] .skip none false⟩, ⟨2, .xactCommit⟩,
    ⟨1, .xactBegin⟩, ⟨1, .insert 7 [] .skip none false⟩, ⟨1, .clear 7⟩,
    ⟨1, .insert 7 [] .skip none false⟩]

theorem abort_leaves_ledger_rows_clearOverCommitted :
    ∃ state ledger state', Reaches (ledgerStep bareCatalog) Orderly (.initial, fun _ => [])
        (state, ledger) ∧
      step bareCatalog state ⟨1, .xactAbort⟩ = some state' ∧
      (∀ third, third ≠ 1 → Overlays.holdsClear (state.overlays third 7) = false) ∧
      ledger 7 ≠ [] ∧ ∀ tid bytes,
        (tid, bytes) ∈ (state'.relations 7).visibleRows (state'.overlays 2 7) ↔
          ((tid, bytes) ∈ ledger 7 ∧ ¬ Overlays.invalidates (state.overlays 2 7) tid) ∨
            (tid ∈ Overlays.inserted (state.overlays 2 7) ∧
              (tid, bytes) ∈ (state.relations 7).visibleRows (state.overlays 2 7)) := by
  have checked : (run (ledgerStep bareCatalog) (.initial, fun _ => []) clearOverCommitted).any
      (fun after => !(after.2 7).isEmpty && !holdsClear (after.1.overlays 2 7)) = true := by
    decide +kernel
  obtain ⟨⟨state, ledger⟩, ran, facts⟩ := (Option.any_eq_true _ _).mp checked
  have reached := reaches_orderly_of_run [1, 2] (by decide +kernel) ran
  have within := (Within.initial [1, 2]).ledgerRun (by decide) ran
  simp only [Bool.and_eq_true, Bool.not_eq_true', List.isEmpty_eq_false_iff] at facts
  have unheld : ∀ third, third ≠ 1 → holdsClear (state.overlays third 7) = false := by
    intro third different
    by_cases second : third = 2
    · exact second ▸ facts.2
    · rw [within.overlays (by simp [different, second])]
      rfl
  exact ⟨state, ledger, _, reached, rfl, unheld, facts.1,
    abort_leaves_ledger_rows reached rfl (by decide) unheld⟩

/-- A session inserts, another commits a row onto the same page, and the first
    clears: its page checkpoint is older than the committed row. -/
def clearPastCheckpoint : List Event :=
  [⟨1, .xactBegin⟩, ⟨1, .insert 7 [] .skip none false⟩,
    ⟨2, .xactBegin⟩, ⟨2, .insert 7 [] .skip none false⟩, ⟨2, .xactCommit⟩,
    ⟨1, .clear 7⟩]

/-- After the abort the committed row is gone, though every clear was exclusive
    and the session that looks has no changes of its own. -/
theorem abort_loses_committed_row :
    ∃ state ledger state', Reaches (ledgerStep bareCatalog)
        (fun before event => RespectsClears before.1 event) (.initial, fun _ => [])
        (state, ledger) ∧
      step bareCatalog state ⟨1, .xactAbort⟩ = some state' ∧
      (∀ third, third ≠ 1 → state.overlays third 7 = []) ∧
      (ledger 7).map Prod.fst = [⟨0, 2⟩] ∧
      (state'.relations 7).visibleRows (state'.overlays 2 7) = [] := by
  have checked : (run (ledgerStep bareCatalog) (.initial, fun _ => []) clearPastCheckpoint).any
      (fun after => (after.2 7).map Prod.fst == [⟨0, 2⟩] && (after.1.overlays 2 7).isEmpty &&
        (((after.1.xactAbort 1).relations 7).visibleRows
          ((after.1.xactAbort 1).overlays 2 7)).isEmpty) = true := by
    decide +kernel
  obtain ⟨⟨state, ledger⟩, ran, facts⟩ := (Option.any_eq_true _ _).mp checked
  simp only [Bool.and_eq_true, beq_iff_eq, List.isEmpty_iff] at facts
  obtain ⟨⟨committed, fresh⟩, lost⟩ := facts
  have within := (Within.initial [1, 2]).ledgerRun (by decide) ran
  refine ⟨state, ledger, _, reaches_respecting_of_run [1, 2] (by decide +kernel) ran, rfl, ?_,
    committed, lost⟩
  intro third different
  by_cases second : third = 2
  · exact second ▸ fresh
  · exact within.overlays (by simp [different, second]) 7

end FastPg.Storage
