import FastPg.Storage.Operations
import FastPg.Storage.State

/-! # The depth of a stack

A call on a relation never adds or drops a transaction level, except that the
first write of a session opens one. This holds of any state, so what the other
relations see of such a call does not depend on how well the state is kept.
-/

namespace FastPg.Storage

namespace Local

/-- As many levels as before, or one where there was none. -/
def SameDepth (here here' : Local) : Prop :=
  here'.overlays.length = here.overlays.length ∨
    here.overlays.length = 0 ∧ here'.overlays.length = 1

namespace SameDepth

variable {here here' here'' : Local} (catalog : RelationCatalog)

theorem of_overlays (same : here'.overlays = here.overlays) : SameDepth here here' :=
  .inl (congrArg List.length same)

theorem refl : SameDepth here here := of_overlays rfl

theorem trans (first : SameDepth here here') (second : SameDepth here' here'') :
    SameDepth here here'' := by
  unfold SameDepth at first second ⊢
  omega

theorem start : SameDepth here here.ensureTransaction := by
  unfold SameDepth ensureTransaction
  split
  · rename_i none
    exact .inr ⟨by rw [none]; rfl, rfl⟩
  · exact .inl rfl

theorem modifyTop (f : RelationOverlay → RelationOverlay) : SameDepth here (here.modifyTop f) := by
  unfold SameDepth Local.modifyTop
  split
  · exact .inl rfl
  · rename_i levels
    rw [levels]
    exact .inl rfl

theorem appendPendingTuple {catalog : RelationCatalog} {tuple : Bytes} {result : Option Tid}
    (h : here.appendPendingTuple catalog tuple = (here', result)) : SameDepth here here' := by
  obtain ⟨top, top', outer, levels, levels', -⟩ := appendPendingTuple_steps h
  have started : SameDepth here here.ensureTransaction := .start
  unfold SameDepth at started ⊢
  rw [levels] at started
  rw [levels']
  exact started

theorem stamps (stamped : Local.Stamps here here') : SameDepth here here' := by
  cases stamped with
  | own | shared => exact .inl rfl

theorem edit {may : Local → Tid → Prop} (edit : EditWith catalog may here here') :
    SameDepth here here' := by
  cases edit with
  | start => exact .start
  | compress compressed => exact .of_overlays (Compresses.same (.single compressed)).2
  | limit => exact .of_overlays rfl
  | append encoded appended => exact .appendPendingTuple appended
  | replace hot encoded visible appended =>
    exact (SameDepth.appendPendingTuple appended).trans (.modifyTop _)
  | @strike tid =>
    have resolved : SameDepth here (here.resolveForWrite tid).1 := .of_overlays rfl
    exact (resolved.trans .start).trans (.modifyTop _)
  | stampInsert => exact (SameDepth.modifyTop _).trans (.stamps (here.setInsertMetadata_stamps ..))
  | stampXmax => exact .stamps (here.setRowXmax_stamps ..)
  | note => exact .modifyTop _

theorem edits {may : Local → Tid → Prop} (edits : EditsWith catalog may here here') :
    SameDepth here here' := by
  induction edits with
  | refl => exact .refl
  | tail _ last ih => exact ih.trans (.edit catalog last)

end SameDepth

theorem clear_length (here : Local) (catalog : RelationCatalog) (preserveTidSpace : Bool) :
    (here.clear catalog preserveTidSpace).overlays.length = here.overlays.length := by
  unfold clear
  dsimp only
  split
  · rfl
  · rename_i levels
    rw [levels]
    rfl

end Local

namespace Call

variable {catalog : Catalog} {f : Local → Local}

/-- Every call on a relation but a clear is made of edits, and only a delete strikes a row. -/
theorem onRelation_edits {call : Call} {relid : Relid} {may : Local → Tid → Prop}
    (on : call.onRelation catalog = some (relid, f)) (notClear : call ≠ .clear relid) {here : Local}
    (allowed : ∀ tid keyed, call = .delete relid tid keyed → may here tid) :
    Local.EditsWith (catalog relid) may here (f here) := by
  cases call with
  | xactBegin | xactBeginImplicit | xactCommit | xactAbort | xactCommitIfImplicit
  | xactAbortIfImplicit | subxactBegin | subxactCommit | subxactAbort => cases on
  | clear target =>
    cases on
    exact absurd rfl notClear
  | insert _ input check metadata keyed =>
    cases on
    exact (Local.insert_outcome input check metadata keyed).edits
  | update _ tid input check hot metadata =>
    cases on
    exact (Local.update_outcome tid input check hot metadata).edits
  | updateHotIfPreserved _ tid input key metadata =>
    cases on
    exact (Local.updateHotIfPreserved_outcome tid input key metadata).edits
  | delete _ tid keyed =>
    cases on
    exact Local.delete_edits tid keyed (allowed tid keyed rfl)
  | recordInvalidateMetadata _ tid xid cid =>
    cases on
    exact .single (Local.recordInvalidateMetadata_edit tid xid cid)
  | recordPrimaryKey _ tid =>
    cases on
    exact Local.recordPrimaryKey_edits tid
  | recordPrimaryKeyEntry _ key tid =>
    cases on
    exact Local.recordPrimaryKeyEntry_edits key tid
  | recordIndexEntries _ indexRelid prefixes tid =>
    cases on
    exact Local.recordIndexEntries_edits indexRelid prefixes tid
  | resolveTid _ tid =>
    cases on
    exact .single (.compress (.hot here here.overlays tid (.inl rfl)))
  | resolveUpdateTid _ tid =>
    cases on
    exact .single (.compress (.update here here.overlays tid (.inl rfl)))
  | primaryKeyLookup _ key =>
    cases on
    exact (Local.primaryKeyLookup_compresses key).edits
  | setMaxTuplesPerBlock _ maxTuples =>
    cases on
    exact .single (.limit here maxTuples)

theorem onRelation_moves {call : Call} {relid : Relid}
    (on : call.onRelation catalog = some (relid, f)) (notClear : call ≠ .clear relid) {here : Local}
    (stack : StackSound here.relation here.overlays) :
    Local.Moves (catalog relid) here (f here) := by
  have edits : Local.Edits (catalog relid) here (f here) :=
    onRelation_edits on notClear fun _ _ _ => trivial
  exact edits.moves stack

/-- Every call on a relation. -/
theorem onRelation_depth {call : Call} {relid : Relid}
    (on : call.onRelation catalog = some (relid, f)) (here : Local) : here.SameDepth (f here) := by
  by_cases cleared : call = .clear relid
  · subst cleared
    cases on
    exact .inl (here.clear_length ..)
  · have edits : Local.Edits (catalog relid) here (f here) :=
      onRelation_edits on cleared fun _ _ _ => trivial
    exact .edits _ edits

end Call

end FastPg.Storage
