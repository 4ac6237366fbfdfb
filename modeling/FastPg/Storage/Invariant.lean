import FastPg.Storage.Engine

/-! # Properties of relations and levels

A property of relations together with one of levels, such that both hold where
nothing was stored and every operation keeps them, holds of every relation and
of every level of every session along each run.
-/

namespace FastPg.Storage

open Transition

structure Local.Holds (stored : RelationStorage → Prop) (level : RelationOverlay → Prop)
    (here : Local) : Prop where
  relation : stored here.relation
  levels : ∀ overlay ∈ here.overlays, level overlay

variable {stored : RelationStorage → Prop} {level : RelationOverlay → Prop}

namespace Local.Holds

variable {here : Local} {relation relation' : RelationStorage} {top top' : RelationOverlay}
  {outer : Overlays}

theorem withTop (holds : Local.Holds stored level ⟨relation, top :: outer⟩)
    (kept : stored relation') (inner : level top') :
    Local.Holds stored level ⟨relation', top' :: outer⟩ where
  relation := kept
  levels := by
    intro overlay mem
    rcases List.mem_cons.mp mem with rfl | outside
    · exact inner
    · exact holds.levels overlay (.tail _ outside)

theorem modifyTop {f : RelationOverlay → RelationOverlay} (holds : here.Holds stored level)
    (keeps : ∀ top, level top → level (f top)) : (here.modifyTop f).Holds stored level := by
  obtain ⟨relation, overlays⟩ := here
  cases overlays with
  | nil => exact holds
  | cons top outer => exact holds.withTop holds.relation (keeps top (holds.levels top (.head _)))

theorem start (holds : here.Holds stored level) (empty : level {}) :
    here.ensureTransaction.Holds stored level := by
  obtain ⟨relation, overlays⟩ := here
  cases overlays with
  | cons top outer => exact holds
  | nil =>
    refine ⟨holds.relation, fun overlay mem => ?_⟩
    rw [List.mem_singleton.mp mem]
    exact empty

/-- Where a row is appended, the innermost level is open. -/
theorem opened (holds : here.Holds stored level) (empty : level {})
    (levels : here.ensureTransaction.overlays = top :: outer) :
    Local.Holds stored level ⟨here.relation, top :: outer⟩ := by
  rw [← levels, ← ensureTransaction_relation here]
  exact holds.start empty

theorem mergeAll (release : ∀ {parent child : RelationOverlay}, level parent → level child →
    level (parent.appendFrom child)) (levels : ∀ overlay ∈ top :: outer, level overlay) :
    level (mergeAll top outer) := by
  induction outer generalizing top with
  | nil => exact levels top (.head _)
  | cons parent rest ih =>
    refine ih fun overlay mem => ?_
    rcases List.mem_cons.mp mem with rfl | outside
    · exact release (levels parent (by simp)) (levels top (by simp))
    · exact levels overlay (by simp [outside])

end Local.Holds

/-- What every operation on a relation keeps. -/
structure Inductive (stored : RelationStorage → Prop) (level : RelationOverlay → Prop) : Prop where
  initial : stored .default
  empty : level {}
  edit : ∀ {catalog : RelationCatalog} {here here' : Local}, Local.Edit catalog here here' →
    here.Holds stored level → StackSound here.relation here.overlays → here'.Holds stored level
  release : ∀ {parent child : RelationOverlay}, level parent → level child →
    level (parent.appendFrom child)
  rollback : ∀ {relation : RelationStorage} {top : RelationOverlay}, stored relation →
    relation.Sound → level top → stored (Local.rollbackOverlay relation top)
  commit : ∀ {relation relation' : RelationStorage} {top : RelationOverlay},
    LevelSound relation top [] → stored relation → level top →
    Local.commitOverlay relation top = some relation' → stored relation'
  clear : ∀ {catalog : RelationCatalog} {here : Local}, here.Holds stored level →
    StackSound here.relation here.overlays → ∀ preserveTidSpace,
    (here.clear catalog preserveTidSpace).Holds stored level

namespace Local.Holds

variable {here here' : Local} {relation : RelationStorage} {overlays : Overlays}

theorem idle (kept : Inductive stored level) (holds : stored relation) (idle : Idle overlays) :
    Local.Holds stored level ⟨relation, overlays⟩ :=
  ⟨holds, fun overlay mem => idle overlay mem ▸ kept.empty⟩

theorem edits {catalog : RelationCatalog} (kept : Inductive stored level)
    (holds : here.Holds stored level) (stack : StackSound here.relation here.overlays)
    (edits : Edits catalog here here') : here'.Holds stored level := by
  induction edits with
  | refl => exact holds
  | tail before last ih => exact kept.edit last ih (EditsWith.writes before stack).stack

theorem commitAll (kept : Inductive stored level) (holds : here.Holds stored level)
    (stack : StackSound here.relation here.overlays) (h : here.commitAll = some relation) :
    stored relation := by
  obtain ⟨start, overlays⟩ := here
  cases overlays with
  | nil =>
    cases h
    exact holds.relation
  | cons top outer =>
    exact kept.commit (mergeAll_stack stack).1 holds.relation (mergeAll kept.release holds.levels) h

theorem rollbackAll (kept : Inductive stored level) (stack : StackSound relation overlays)
    (holds : Local.Holds stored level ⟨relation, overlays⟩) :
    stored (Local.rollbackAll relation overlays) := by
  induction overlays generalizing relation with
  | nil => exact holds.relation
  | cons top outer ih =>
    refine ih (rollbackOverlay_stack stack) ⟨?_, fun overlay mem => ?_⟩
    · exact kept.rollback holds.relation stack.sound (holds.levels top (.head _))
    · exact holds.levels overlay (.tail _ mem)

end Local.Holds

/-- Copying rows that were written is editing. -/
theorem Local.copyTuples_edits {catalog : RelationCatalog} {tuples : List Bytes}
    (encoded : ∀ tuple ∈ tuples, Encoded tuple) (here : Local) :
    Edits unshared here (copyTuples catalog tuples here).1 := by
  induction tuples generalizing here with
  | nil => exact .refl
  | cons tuple rest ih =>
    have copy := ih fun other mem => encoded other (.tail _ mem)
    rw [copyTuples]
    cases appended : here.appendCopy tuple with
    | mk copied result =>
      have first : Edit unshared here copied :=
        .append (encoded tuple (.head _)) ((here.appendCopy_eq tuple).symm.trans appended)
      cases result with
      | none => exact .single first
      | some tid =>
        refine .head first (.trans ?_ (copy _))
        unfold recordCopiedKey
        split
        next key _ =>
          exact .single (.note copied _ (fun _ => ⟨⟨rfl, rfl, rfl, rfl, rfl, rfl, rfl⟩, rfl⟩)
            fun _ _ tidy => tidy.insertPrimaryKey key tid)
        next => exact .refl

/-! ## Every session -/

def View.Holds (stored : RelationStorage → Prop) (level : RelationOverlay → Prop) (view : View) : Prop :=
  ∀ sid, (view.reach sid).Holds stored level

theorem View.Holds.put {view : View} (holds : view.Holds stored level) {sid : SessionId} {here : Local}
    (outcome : here.Holds stored level) : (view.put sid here).Holds stored level := by
  intro other
  refine ⟨outcome.relation, ?_⟩
  by_cases same : other = sid
  · subst same
    simpa [View.reach] using outcome.levels
  · simpa [View.reach, View.put_levels_other view here same] using (holds other).levels

theorem Effect.holds {catalog : Catalog} {relid : Relid} {sid : SessionId} {call : Call}
    {view view' : View} (effect : Effect catalog relid sid call view view') (shared : Shared view)
    (kept : Inductive stored level) (holds : view.Holds stored level) : view'.Holds stored level := by
  have here := holds sid
  have stack := shared.levels sid
  cases effect with
  | rest => exact holds
  | start fresh =>
    refine holds.put (.idle kept here.relation fun overlay mem => ?_)
    simpa using mem
  | row on notClear => exact holds.put (here.edits kept stack
      (Call.onRelation_edits on notClear fun _ _ _ => trivial))
  | clear => exact holds.put (kept.clear here stack false)
  | push =>
    refine holds.put ⟨here.relation, fun overlay mem => ?_⟩
    rcases List.mem_cons.mp mem with rfl | outside
    · exact kept.empty
    · exact (here.start kept.empty).levels overlay outside
  | release levels =>
    have open_ := here.levels
    rw [View.reach, levels] at open_
    refine holds.put ⟨here.relation, fun overlay mem => ?_⟩
    rcases List.mem_cons.mp mem with rfl | outside
    · exact kept.release (open_ _ (by simp)) (open_ _ (by simp))
    · exact open_ overlay (by simp [outside])
  | undo levels =>
    have open_ := here.levels
    rw [View.reach, levels] at open_
    exact holds.put ⟨kept.rollback here.relation stack.sound (open_ _ (by simp)),
      fun overlay mem => open_ overlay (.tail _ mem)⟩
  | drop levels dropped ends =>
    have open_ := here.levels
    rw [View.reach, levels] at open_
    refine holds.put ⟨here.relation, fun overlay mem => ?_⟩
    rcases dropped with rfl | ⟨-, rfl⟩
    · exact open_ overlay (.tail _ mem)
    · rw [List.mem_singleton.mp mem]
      exact kept.empty
  | commit committed left ends =>
    refine holds.put (.idle kept (here.commitAll kept stack committed) fun overlay mem => ?_)
    rcases left with rfl | rfl
    · cases mem
    · exact List.mem_singleton.mp mem
  | rollback ends =>
    exact holds.put (.idle kept (here.rollbackAll kept stack) fun _ mem => by cases mem)

namespace Engine

variable {catalog : Catalog}

/-- One request keeps it, where copies are of rows that were written. -/
theorem holds_step {engine engine' : Engine} {request : Request} (kept : Inductive stored level)
    (sound : Kept engine)
    (encoded : ∀ sid relid, ∀ tuple ∈ engine.storage.visibleTuples sid relid, Encoded tuple)
    (holds : ∀ relid, (engine.storage.view relid).Holds stored level)
    (taken : Engine.step catalog engine request = some engine') :
    ∀ relid, (engine'.storage.view relid).Holds stored level := by
  obtain ⟨sid, action⟩ := request
  cases action with
  | call call =>
    obtain ⟨storage, stepped, rfl⟩ := Option.map_eq_some_iff.mp taken
    exact fun relid => (step_effect stepped relid).holds (sound.shared relid) kept
      (holds relid)
  | replaceFrom dst src =>
    cases taken
    intro relid
    rcases StorageState.replaceRelationFrom_view catalog engine.storage sid dst src relid with
      ⟨rfl, view⟩ | ⟨-, effect⟩
    · have stack := (sound.shared relid).levels sid
      have stack' := Local.clear_stack ((engine.storage.view relid).reach sid) stack
        (catalog relid) true
      rw [view]
      exact (holds relid).put (.edits kept (kept.clear (holds relid sid) stack true) stack'
        (Local.copyTuples_edits (encoded sid src) _))
    · exact effect.holds (sound.shared relid) kept (holds relid)

theorem holds_initial (kept : Inductive stored level) (relid : Relid) :
    (Engine.initial.storage.view relid).Holds stored level := by
  intro sid
  refine .idle kept kept.initial fun overlay mem => ?_
  simp [Engine.initial, StorageState.view, StorageState.initial, StorageState.overlays,
    SessionStorage.initial] at mem

end Engine

end FastPg.Storage
