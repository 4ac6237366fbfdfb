import FastPg.Catalog.Rows

/-! # The last surviving write

What a session should read of a row is decided by the last write to it, among
the committed ones and its own that were not rolled back. Drafts are run side by
side with journals of the writes they were made from, and each draft is shown to
say of every row what the last write in its journal says, as long as no typed
row is written where a tombstone or a compatibility row could hide it.
-/

namespace FastPg.Catalog

open Assoc Layers Transition Option
open List hiding insert lookup

variable {ρ α : Type}

/-! ## What a draft says of a row -/

namespace Write

def key : Write ρ → Key
  | upsert key _ | delete key => key

/-- The row that is written; a deletion writes none. -/
def row : Write ρ → Option ρ
  | upsert _ row => some row
  | delete _ => none

end Write

namespace CompatCatalogRows

/-- A row, a deletion, or nothing. -/
def entry (compat : CompatCatalogRows ρ) (key : Key) : Option (Option ρ) :=
  ((compat.rows.get key).map some).or (if key ∈ compat.tombstones then some none else none)

@[simp] theorem entry_insert (compat : CompatCatalogRows ρ) (key other : Key) (row : ρ) :
    (compat.insert key row).entry other =
      if key = other then some (some row) else compat.entry other := by
  by_cases same : key = other
  · simp [entry, insert, same]
  · simp [entry, insert, untombstone, same, Ne.symm same]

@[simp] theorem entry_delete (compat : CompatCatalogRows ρ) (key other : Key) :
    (compat.delete key).entry other = if key = other then some none else compat.entry other := by
  by_cases same : key = other
  · simp [entry, delete, same]
  · simp [entry, delete, same, Ne.symm same]

/-- A tombstone is taken back, a row is not. -/
@[simp] theorem entry_untombstone (compat : CompatCatalogRows ρ) (key other : Key) :
    (compat.untombstone key).entry other =
      if key = other then (compat.entry other).filter isSome else compat.entry other := by
  by_cases same : key = other
  · subst same
    cases found : compat.rows.get key with
    | none =>
      by_cases dead : key ∈ compat.tombstones <;>
        simp [entry, untombstone, found, dead, filter_some]
    | some row => simp [entry, untombstone, found, filter_some]
  · simp [entry, untombstone, same, Ne.symm same]

theorem entry_foldl_delete (tombstones : List Key) (compat : CompatCatalogRows ρ) (key : Key) :
    (tombstones.foldl delete compat).entry key =
      if key ∈ tombstones then some none else compat.entry key := by
  induction tombstones generalizing compat with
  | nil => simp
  | cons dead rest ih =>
    rw [foldl_cons, ih, entry_delete]
    grind

@[simp] theorem entry_merge (compat other : CompatCatalogRows ρ) (key : Key) :
    (compat.merge other).entry key = (other.entry key).or (compat.entry key) := by
  have folded := @Dict.foldl_observe Key ρ _ _ _
    (fun compat entry => compat.insert entry.1 entry.2) (fun compat => compat.entry key)
    (fun row _ => some (some row)) key (fun state k row => entry_insert state k key row) other.rows
    (other.tombstones.foldl delete compat)
  rw [merge, folded, entry_foldl_delete]
  cases found : other.rows.get key with
  | none => by_cases dead : key ∈ other.tombstones <;> simp [entry, found, dead]
  | some row => simp [entry, found]

theorem entry_of_isEmpty {compat : CompatCatalogRows ρ} (nothing : compat.isEmpty = true)
    (key : Key) : compat.entry key = none := by
  simp only [isEmpty, Bool.and_eq_true] at nothing
  simp [entry, Dict.get_of_isEmpty nothing.1, isEmpty_iff.mp nothing.2]

end CompatCatalogRows

def CatalogSnapshot.entry (snapshot : CatalogSnapshot ρ) (key : Key) : Option (Option ρ) :=
  (snapshot.compat.entry key).or ((snapshot.typed.get key).map some)

namespace CatalogDraft

def entry (draft : CatalogDraft ρ) (key : Key) : Option (Option ρ) :=
  (draft.compat.entry key).or (draft.typed.get key)

/-- What the draft says of the row comes from the typed map. -/
def Holds (draft : CatalogDraft ρ) (key : Key) : Prop :=
  draft.compat.entry key = none ∧ ∃ row, draft.typed.get key = some (some row)

/-- A typed row is only deleted together with its compatibility row. -/
def Tidy (draft : CatalogDraft ρ) : Prop :=
  ∀ key, draft.typed.get key = some none → draft.compat.entry key ≠ none

/-- No typed row of the draft meets a tombstone or a compatibility row. -/
def Clear (draft : CatalogDraft ρ) (compat : CompatCatalogRows ρ) : Prop :=
  ∀ key, draft.Holds key → compat.entry key = none

variable {draft parent child : CatalogDraft ρ}

/-- Either the compatibility rows decide, or a typed row does, or nothing. -/
theorem Tidy.cases (tidy : draft.Tidy) (key : Key) :
    (∃ mutation, draft.compat.entry key = some mutation) ∨
      (draft.compat.entry key = none ∧ draft.typed.get key = none) ∨
      (draft.Holds key ∧ ∃ row, draft.typed.get key = some (some row)) := by
  cases marked : draft.compat.entry key with
  | some mutation => exact .inl ⟨mutation, rfl⟩
  | none =>
    cases typed : draft.typed.get key with
    | none => exact .inr (.inl ⟨rfl, rfl⟩)
    | some mutation =>
      cases mutation with
      | none => exact absurd marked (tidy key typed)
      | some row => exact .inr (.inr ⟨⟨marked, row, typed⟩, row, rfl⟩)

/-! ### Applying a draft -/

theorem typed_publish (draft : CatalogDraft ρ) (snapshot : CatalogSnapshot ρ) (key : Key) :
    (draft.publish snapshot).typed.get key =
      (draft.typed.get key).elim (snapshot.typed.get key) id := by
  unfold publish
  split
  next nothing =>
    simp only [isEmpty, Bool.and_eq_true] at nothing
    rw [Dict.get_of_isEmpty nothing.1]
    rfl
  next =>
    refine @Dict.foldl_observe Key (Option ρ) _ _ _ applyMutation (fun typed => typed.get key)
      (fun mutation _ => mutation) key ?_ draft.typed snapshot.typed
    intro typed k mutation
    cases mutation with
    | none => exact Dict.get_erase typed k key
    | some row => exact Dict.get_insert typed k key row

theorem compat_publish (draft : CatalogDraft ρ) (snapshot : CatalogSnapshot ρ) (key : Key) :
    (draft.publish snapshot).compat.entry key =
      (draft.compat.entry key).or (snapshot.compat.entry key) := by
  unfold publish
  split
  next nothing =>
    simp only [isEmpty, Bool.and_eq_true] at nothing
    rw [CompatCatalogRows.entry_of_isEmpty nothing.2]
    rfl
  next => exact CompatCatalogRows.entry_merge ..

theorem entry_publish {snapshot : CatalogSnapshot ρ} (tidy : draft.Tidy)
    (clear : draft.Clear snapshot.compat) (key : Key) :
    (draft.publish snapshot).entry key = (draft.entry key).or (snapshot.entry key) := by
  rw [CatalogSnapshot.entry, typed_publish, compat_publish, entry]
  rcases tidy.cases key with ⟨mutation, marked⟩ | ⟨unmarked, absent⟩ | ⟨holds, row, present⟩
  · simp [marked]
  · simp [unmarked, absent, CatalogSnapshot.entry]
  · simp [holds.1, present, clear key holds]

/-! ### Merging a draft -/

theorem compat_merge (parent child : CatalogDraft ρ) (key : Key) :
    (parent.merge child).compat.entry key =
      (child.compat.entry key).or
        (if (child.typed.get key).join.isSome then (parent.compat.entry key).filter isSome
          else parent.compat.entry key) := by
  have folded := @Dict.foldl_observe Key (Option ρ) _ _ _
    (fun compat entry => if entry.2.isSome then compat.untombstone entry.1 else compat)
    (fun compat : CompatCatalogRows ρ => compat.entry key)
    (fun mutation found => if mutation.isSome then found.filter isSome else found) key
    (by
      intro state k mutation
      cases mutation <;> simp) child.typed parent.compat
  rw [merge, CompatCatalogRows.entry_merge, folded]
  cases child.typed.get key with
  | none => rfl
  | some mutation => rfl

theorem entry_merge (tidy : child.Tidy) (clear : child.Clear parent.compat) (key : Key) :
    (parent.merge child).entry key = (child.entry key).or (parent.entry key) := by
  rw [entry, compat_merge]
  simp only [merge, Dict.get_extend, entry]
  rcases tidy.cases key with ⟨mutation, marked⟩ | ⟨unmarked, absent⟩ | ⟨holds, row, present⟩
  · simp [marked]
  · simp [unmarked, absent]
  · simp [holds.1, present, clear key holds]

theorem Tidy.merge {parent child : CatalogDraft ρ} (outer : parent.Tidy) (inner : child.Tidy) :
    (parent.merge child).Tidy := by
  intro key deleted
  rw [compat_merge]
  simp only [CatalogDraft.merge, Dict.get_extend] at deleted
  cases typed : child.typed.get key with
  | none =>
    rw [typed, none_or] at deleted
    have marked := outer key deleted
    cases child.compat.entry key <;> simp [marked]
  | some mutation =>
    rw [typed, some_or, some.injEq] at deleted
    have marked := inner key (deleted ▸ typed)
    cases found : child.compat.entry key with
    | none => exact absurd found marked
    | some mutation => simp

theorem compat_merge_none {key : Key} (inner : child.compat.entry key = none)
    (outer : parent.compat.entry key = none) :
    (parent.merge child).compat.entry key = none := by
  rw [compat_merge, inner, outer]
  simp

/-- The merged draft has a typed row from one of the two. -/
theorem holds_merge {key : Key} (holds : (parent.merge child).Holds key) :
    child.Holds key ∨ parent.Holds key := by
  obtain ⟨unmarked, row, present⟩ := holds
  rw [compat_merge, or_eq_none_iff] at unmarked
  simp only [merge, Dict.get_extend] at present
  cases typed : child.typed.get key with
  | none =>
    simp only [typed, none_or, join_none, isSome_none, Bool.false_eq_true,
      if_false] at present unmarked
    exact .inr ⟨unmarked.2, row, present⟩
  | some mutation =>
    rw [typed, some_or, some.injEq] at present
    exact .inl ⟨unmarked.1, row, present ▸ typed⟩

theorem not_holds_empty (key : Key) : ¬ (empty : CatalogDraft ρ).Holds key := by
  rintro ⟨_, row, present⟩
  simp [empty] at present

theorem Tidy.empty : (CatalogDraft.empty : CatalogDraft ρ).Tidy := by
  intro key deleted
  simp [CatalogDraft.empty] at deleted

/-! ### Writing to a draft -/

/-- Whether a write goes to the typed map. -/
def writesTyped (schema : Schema ρ α) : Write ρ → Bool
  | .upsert key row => key.1.typed && schema.parses key.1 row
  | .delete _ => false

theorem write_typed {schema : Schema ρ α} {key : Key} {row : ρ}
    (typed : writesTyped schema (.upsert key row) = true) :
    draft.write schema (.upsert key row) =
      ⟨draft.typed.insert key (some row), draft.compat.untombstone key⟩ :=
  if_pos typed

theorem write_unparsed {schema : Schema ρ α} {key : Key} {row : ρ}
    (untyped : writesTyped schema (.upsert key row) = false) :
    draft.write schema (.upsert key row) = { draft with compat := draft.compat.insert key row } :=
  if_neg (Bool.eq_false_iff.mp untyped)

theorem holds_of_write_typed {schema : Schema ρ α} {key other : Key} {row : ρ}
    (typed : writesTyped schema (.upsert key row) = true)
    (holds : (draft.write schema (.upsert key row)).Holds other) :
    key = other ∨ draft.Holds other := by
  rw [write_typed typed] at holds
  obtain ⟨unmarked, found, present⟩ := holds
  by_cases same : key = other
  · exact .inl same
  · simp only [Dict.get_insert, CompatCatalogRows.entry_untombstone, same, if_false]
      at present unmarked
    exact .inr ⟨unmarked, found, present⟩

/-- Any other write leaves a mark. -/
theorem compat_write {schema : Schema ρ α} {write : Write ρ}
    (untyped : writesTyped schema write = false) (key : Key) :
    (draft.write schema write).compat.entry key =
      if write.key = key then some write.row else draft.compat.entry key := by
  cases write with
  | upsert target row =>
    rw [write_unparsed untyped]
    exact CompatCatalogRows.entry_insert ..
  | delete target => exact CompatCatalogRows.entry_delete ..

theorem typed_write {schema : Schema ρ α} {write : Write ρ}
    (untyped : writesTyped schema write = false) {key : Key} (other : write.key ≠ key) :
    (draft.write schema write).typed.get key = draft.typed.get key := by
  cases write with
  | upsert target row =>
    rw [write_unparsed untyped]
  | delete target =>
    have ne : target ≠ key := other
    simp only [write, deleteCatalogRow]
    split
    · simp [ne]
    · rfl

/-- Such a write makes no typed row. -/
theorem typed_of_write {schema : Schema ρ α} {write : Write ρ} {key : Key} {row : ρ}
    (untyped : writesTyped schema write = false)
    (present : (draft.write schema write).typed.get key = some (some row)) :
    draft.typed.get key = some (some row) := by
  by_cases same : write.key = key
  · cases write with
    | upsert target _ => rwa [write_unparsed untyped] at present
    | delete target =>
      have here : target = key := same
      simp only [CatalogDraft.write, deleteCatalogRow] at present
      split at present
      · simp [here] at present
      · exact present
  · rwa [typed_write untyped same] at present

theorem holds_of_write {schema : Schema ρ α} {write : Write ρ} {key : Key}
    (untyped : writesTyped schema write = false) (holds : (draft.write schema write).Holds key) :
    draft.Holds key := by
  obtain ⟨unmarked, row, present⟩ := holds
  rw [compat_write untyped] at unmarked
  split at unmarked
  · cases unmarked
  · exact ⟨unmarked, row, typed_of_write untyped present⟩

end CatalogDraft

/-! ## Journals -/

/-- What the last write to a row made of it. -/
def lastWrite (journal : List (Write ρ)) (key : Key) : Option (Option ρ) :=
  journal.foldl (fun found write => if write.key = key then some write.row else found) none

theorem lastWrite_foldl (journal : List (Write ρ)) (key : Key) (found : Option (Option ρ)) :
    journal.foldl (fun found write => if write.key = key then some write.row else found) found =
      (lastWrite journal key).or found := by
  induction journal generalizing found with
  | nil => rfl
  | cons write rest ih =>
    have head : lastWrite (write :: rest) key =
        (lastWrite rest key).or (if write.key = key then some write.row else none) := ih _
    rw [List.foldl_cons, ih, head, Option.or_assoc]
    split <;> simp

@[simp] theorem lastWrite_append (first second : List (Write ρ)) (key : Key) :
    lastWrite (first ++ second) key = (lastWrite second key).or (lastWrite first key) := by
  rw [lastWrite, foldl_append, lastWrite_foldl]
  rfl

@[simp] theorem lastWrite_singleton (write : Write ρ) (key : Key) :
    lastWrite [write] key = if write.key = key then some write.row else none := rfl

/-- Journals combine by appending. -/
def journals (ρ : Type) : Layering (List (Write ρ)) (List (Write ρ)) := ⟨[], (· ++ ·), (· ++ ·)⟩

/-- A draft with the writes it was made from. -/
abbrev Recorded (ρ : Type) := CatalogDraft ρ × List (Write ρ)

abbrev RecordedState (ρ : Type) := System (CatalogSnapshot ρ × List (Write ρ)) (Recorded ρ)

def RecordedState.initial : RecordedState ρ := ⟨(.empty, []), fun _ => ⟨[], false⟩⟩

/-- The catalog and the journals, side by side. -/
def recordedStep (schema : Schema ρ α) :
    RecordedState ρ → Nat × Op (Write ρ) → Option (RecordedState ρ) :=
  step ((drafts ρ).prod (journals ρ)) fun change layer =>
    (layer.1.write schema change, layer.2 ++ [change])

/-! ## Drafts that follow their journals -/

/-- The row is nobody's built-in row, nor does it stand for a built-in column. -/
def Foreign (schema : Schema ρ α) (key : Key) (row : ρ) : Prop :=
  (∀ entry ∈ schema.early key.1, entry.1 ≠ key.2) ∧
    ∀ synthetic ∈ schema.late key.1, synthetic.id ≠ key.2 ∧
      (synthetic.column ≠ none → synthetic.column ≠ schema.attributeKey row)

/-- A draft that follows its journal. -/
structure Follows (schema : Schema ρ α) (layer : Recorded ρ) : Prop where
  tidy : layer.1.Tidy
  entry : ∀ key, layer.1.entry key = lastWrite layer.2 key
  foreign : ∀ key row, layer.1.typed.get key = some (some row) → Foreign schema key row

/-- The state of one session, among the layers of all others. -/
structure Sound (schema : Schema ρ α) (others : Recorded ρ → Prop)
    (here : (CatalogSnapshot ρ × List (Write ρ)) × List (Recorded ρ)) : Prop where
  base : ∀ key, here.1.1.entry key = lastWrite here.1.2 key
  foreign : ∀ key row, here.1.1.typed.get key = some row → Foreign schema key row
  follows : ∀ layer ∈ here.2, Follows schema layer
  nested : here.2.Pairwise fun inner outer => inner.1.Clear outer.1.compat
  shared : ∀ layer ∈ here.2, layer.1.Clear here.1.1.compat
  apart : ∀ layer ∈ here.2, ∀ other, others other →
    layer.1.Clear other.1.compat ∧ other.1.Clear layer.1.compat
  outside : ∀ other, others other → other.1.Clear here.1.1.compat

variable {schema : Schema ρ α} {others : Recorded ρ → Prop} {compat : CompatCatalogRows ρ}
  {layer top : Recorded ρ} {base : CatalogSnapshot ρ × List (Write ρ)} {outer : List (Recorded ρ)}

theorem Follows.empty : Follows schema (CatalogDraft.empty, []) where
  tidy := .empty
  entry := fun _ => rfl
  foreign := by
    intro key row present
    simp [CatalogDraft.empty] at present

theorem Follows.merge {parent child : Recorded ρ} (outer : Follows schema parent)
    (inner : Follows schema child) (clear : child.1.Clear parent.1.compat) :
    Follows schema (parent.1.merge child.1, parent.2 ++ child.2) where
  tidy := outer.tidy.merge inner.tidy
  entry := by
    intro key
    rw [CatalogDraft.entry_merge inner.tidy clear, lastWrite_append, inner.entry, outer.entry]
  foreign := by
    intro key row present
    simp only [CatalogDraft.merge, Dict.get_extend] at present
    rcases or_eq_some_iff.mp present with found | ⟨_, found⟩
    · exact inner.foreign key row found
    · exact outer.foreign key row found

/-- Every move of a session keeps drafts and journals together. -/
theorem Sound.move {here after : (CatalogSnapshot ρ × List (Write ρ)) × List (Recorded ρ)}
    (sound : Sound schema others here) (move : Move ((drafts ρ).prod (journals ρ)) here after) :
    Sound schema others after := by
  cases move with
  | @push base stack =>
    have unheld : ∀ compat, (CatalogDraft.empty : CatalogDraft ρ).Clear compat :=
      fun _ key holds => absurd holds (CatalogDraft.not_holds_empty key)
    refine ⟨sound.base, sound.foreign, ?_, ?_, ?_, ?_, sound.outside⟩
    · exact forall_mem_cons.mpr ⟨.empty, sound.follows⟩
    · exact pairwise_cons.mpr ⟨fun _ _ => unheld _, sound.nested⟩
    · exact forall_mem_cons.mpr ⟨unheld _, sound.shared⟩
    · exact forall_mem_cons.mpr ⟨fun _ _ => ⟨unheld _, fun _ _ => rfl⟩, sound.apart⟩
  | @drop base top outer =>
    exact ⟨sound.base, sound.foreign, (forall_mem_cons.mp sound.follows).2,
      (pairwise_cons.mp sound.nested).2, (forall_mem_cons.mp sound.shared).2,
      (forall_mem_cons.mp sound.apart).2, sound.outside⟩
  | @merge base child parent outer =>
    obtain ⟨inner, rest⟩ := forall_mem_cons.mp sound.follows
    obtain ⟨mid, outermost⟩ := forall_mem_cons.mp rest
    obtain ⟨overInner, nested⟩ := pairwise_cons.mp sound.nested
    obtain ⟨overMid, nested'⟩ := pairwise_cons.mp nested
    obtain ⟨sharedInner, shared⟩ := forall_mem_cons.mp sound.shared
    obtain ⟨sharedMid, shared'⟩ := forall_mem_cons.mp shared
    obtain ⟨apartInner, apart⟩ := forall_mem_cons.mp sound.apart
    obtain ⟨apartMid, apart'⟩ := forall_mem_cons.mp apart
    have clear : ∀ compat, child.1.Clear compat → parent.1.Clear compat →
        (parent.1.merge child.1).Clear compat := by
      intro compat one two key holds
      exact (CatalogDraft.holds_merge holds).elim (one key) (two key)
    refine ⟨sound.base, sound.foreign, ?_, ?_, ?_, ?_, sound.outside⟩
    · exact forall_mem_cons.mpr
        ⟨mid.merge inner (overInner parent (.head _)), outermost⟩
    · refine pairwise_cons.mpr ⟨fun layer mem => ?_, nested'⟩
      exact clear _ (overInner layer (.tail _ mem)) (overMid layer mem)
    · exact forall_mem_cons.mpr ⟨clear _ sharedInner sharedMid, shared'⟩
    · refine forall_mem_cons.mpr ⟨fun other mem => ⟨?_, fun key holds => ?_⟩, apart'⟩
      · exact clear _ (apartInner other mem).1 (apartMid other mem).1
      · exact CatalogDraft.compat_merge_none ((apartInner other mem).2 key holds)
          ((apartMid other mem).2 key holds)
  | @publish base outermost =>
    have follows := sound.follows outermost (mem_singleton_self _)
    have clear := sound.shared outermost (mem_singleton_self _)
    refine ⟨fun key => ?_, fun key row present => ?_, by simp, .nil, by simp, by simp, ?_⟩
    · have published := CatalogDraft.entry_publish follows.tidy clear key
      rw [follows.entry, sound.base] at published
      exact published.trans (lastWrite_append ..).symm
    · have published := CatalogDraft.typed_publish outermost.1 base.1 key
      have found := published.symm.trans present
      cases typed : outermost.1.typed.get key with
      | none => exact sound.foreign key row (by simpa [typed] using found)
      | some mutation =>
        rw [typed] at found
        exact follows.foreign key row (typed.trans (congrArg some found))
    · intro other mem key holds
      have marked := CatalogDraft.compat_publish outermost.1 base.1 key
      rw [(sound.apart outermost (mem_singleton_self _) other mem).2 key holds,
        sound.outside other mem key holds] at marked
      exact marked

theorem Sound.moves {here after : (CatalogSnapshot ρ × List (Write ρ)) × List (Recorded ρ)}
    (sound : Sound schema others here) (moves : Moves ((drafts ρ).prod (journals ρ)) here after) :
    Sound schema others after := by
  induction moves with
  | refl => exact sound
  | tail _ move ih => exact ih.move move

/-! ## Writes -/

theorem untombstone_none {key other : Key} (unmarked : compat.entry other = none) :
    (compat.untombstone key).entry other = none := by
  rw [CompatCatalogRows.entry_untombstone, unmarked]
  simp

theorem untombstone_self {key : Key} (unshadowed : compat.rows.get key = none) :
    (compat.untombstone key).entry key = none := by
  simp [CompatCatalogRows.entry, CompatCatalogRows.untombstone, unshadowed]

theorem Follows.write_typed {key : Key} {row : ρ} (follows : Follows schema layer)
    (typed : CatalogDraft.writesTyped schema (.upsert key row) = true)
    (foreign : Foreign schema key row) (unshadowed : layer.1.compat.rows.get key = none) :
    Follows schema (layer.1.write schema (.upsert key row), layer.2 ++ [.upsert key row]) := by
  rw [CatalogDraft.write_typed typed]
  refine ⟨fun other deleted => ?_, fun other => ?_, fun other found present => ?_⟩
  · by_cases same : key = other
    · simp [same] at deleted
    · simp only [Dict.get_insert, same, if_false] at deleted
      simpa [same] using follows.tidy other deleted
  · rw [lastWrite_append, lastWrite_singleton, ← follows.entry]
    by_cases same : key = other
    · subst same
      simp [CatalogDraft.entry, untombstone_self unshadowed, Write.key, Write.row]
    · simp [CatalogDraft.entry, same, Write.key]
  · by_cases same : key = other
    · subst same
      simp only [Dict.get_insert, if_true, some.injEq] at present
      exact present ▸ foreign
    · simp only [Dict.get_insert, same, if_false] at present
      exact follows.foreign other found present

theorem Follows.write_compat {write : Write ρ} (follows : Follows schema layer)
    (untyped : CatalogDraft.writesTyped schema write = false) :
    Follows schema (layer.1.write schema write, layer.2 ++ [write]) := by
  refine ⟨fun other deleted => ?_, fun other => ?_, fun other found present => ?_⟩
  · rw [CatalogDraft.compat_write untyped]
    by_cases same : write.key = other
    · simp [same]
    · rw [CatalogDraft.typed_write untyped same] at deleted
      simpa [same] using follows.tidy other deleted
  · rw [lastWrite_append, lastWrite_singleton, ← follows.entry, CatalogDraft.entry,
      CatalogDraft.compat_write untyped]
    by_cases same : write.key = other
    · simp [same]
    · simp [same, CatalogDraft.typed_write untyped same, CatalogDraft.entry]
  · exact follows.foreign other found (CatalogDraft.typed_of_write untyped present)

theorem Sound.write_typed {key : Key} {row : ρ} (sound : Sound schema others (base, top :: outer))
    (typed : CatalogDraft.writesTyped schema (.upsert key row) = true)
    (foreign : Foreign schema key row) (unshadowed : top.1.compat.rows.get key = none)
    (published : base.1.compat.entry key = none)
    (above : ∀ layer ∈ outer, layer.1.compat.entry key = none)
    (elsewhere : ∀ other, others other → other.1.compat.entry key = none) :
    Sound schema others
      (base, (top.1.write schema (.upsert key row), top.2 ++ [.upsert key row]) :: outer) := by
  obtain ⟨follows, follows'⟩ := forall_mem_cons.mp sound.follows
  obtain ⟨nested, nested'⟩ := pairwise_cons.mp sound.nested
  obtain ⟨shared, shared'⟩ := forall_mem_cons.mp sound.shared
  obtain ⟨apart, apart'⟩ := forall_mem_cons.mp sound.apart
  have clear : ∀ compat, top.1.Clear compat → compat.entry key = none →
      (top.1.write schema (.upsert key row)).Clear compat := by
    intro compat clear unmarked other holds
    rcases CatalogDraft.holds_of_write_typed typed holds with rfl | before
    · exact unmarked
    · exact clear other before
  have unmarked : ∀ other, top.1.compat.entry other = none →
      (top.1.write schema (.upsert key row)).compat.entry other = none := by
    intro other before
    rw [CatalogDraft.write_typed typed]
    exact untombstone_none before
  refine ⟨sound.base, sound.foreign, ?_, ?_, ?_, ?_, sound.outside⟩
  · exact forall_mem_cons.mpr ⟨follows.write_typed typed foreign unshadowed, follows'⟩
  · refine pairwise_cons.mpr ⟨fun layer mem => ?_, nested'⟩
    exact clear _ (nested layer mem) (above layer mem)
  · exact forall_mem_cons.mpr ⟨clear _ shared published, shared'⟩
  · refine forall_mem_cons.mpr ⟨fun other mem => ⟨?_, fun k holds => ?_⟩, apart'⟩
    · exact clear _ (apart other mem).1 (elsewhere other mem)
    · exact unmarked k ((apart other mem).2 k holds)

theorem Sound.write_compat {write : Write ρ} (sound : Sound schema others (base, top :: outer))
    (untyped : CatalogDraft.writesTyped schema write = false)
    (unheld : ∀ other, others other → ¬ other.1.Holds write.key) :
    Sound schema others (base, (top.1.write schema write, top.2 ++ [write]) :: outer) := by
  obtain ⟨follows, follows'⟩ := forall_mem_cons.mp sound.follows
  obtain ⟨nested, nested'⟩ := pairwise_cons.mp sound.nested
  obtain ⟨shared, shared'⟩ := forall_mem_cons.mp sound.shared
  obtain ⟨apart, apart'⟩ := forall_mem_cons.mp sound.apart
  have clear : ∀ compat, top.1.Clear compat → (top.1.write schema write).Clear compat :=
    fun _ clear key holds => clear key (CatalogDraft.holds_of_write untyped holds)
  refine ⟨sound.base, sound.foreign, ?_, ?_, ?_, ?_, sound.outside⟩
  · exact forall_mem_cons.mpr ⟨follows.write_compat untyped, follows'⟩
  · exact pairwise_cons.mpr ⟨fun layer mem => clear _ (nested layer mem), nested'⟩
  · exact forall_mem_cons.mpr ⟨clear _ shared, shared'⟩
  · refine forall_mem_cons.mpr ⟨fun other mem => ⟨?_, fun key holds => ?_⟩, apart'⟩
    · exact clear _ (apart other mem).1
    · have ne : write.key ≠ key := fun same => unheld other mem (same ▸ holds)
      rw [CatalogDraft.compat_write untyped, if_neg ne]
      exact (apart other mem).2 key holds

/-! ## All sessions -/

/-- What all other sessions hold. -/
def Elsewhere {γ δ : Type} (state : System γ δ) (sid : Nat) (layer : δ) : Prop :=
  ∃ other, other ≠ sid ∧ layer ∈ (state.sessions other).stack

def Faithful (schema : Schema ρ α) (state : RecordedState ρ) : Prop :=
  ∀ sid, Sound schema (Elsewhere state sid) (state.base, (state.sessions sid).stack)

variable {state after : RecordedState ρ} {sid : Nat}

theorem Faithful.initial : Faithful schema (.initial : RecordedState ρ) := by
  intro sid
  refine ⟨fun _ => rfl, ?_, by simp [RecordedState.initial], .nil, by simp [RecordedState.initial],
    by simp [RecordedState.initial], ?_⟩
  · intro key row present
    simp [RecordedState.initial, CatalogSnapshot.empty] at present
  · rintro other ⟨_, _, mem⟩
    simp [RecordedState.initial] at mem

/-- What is sound for the session that takes a step is sound for the others. -/
theorem Faithful.update (faithful : Faithful schema state)
    (kept : ∀ other, other ≠ sid → after.sessions other = state.sessions other)
    (sound : Sound schema (Elsewhere state sid) (after.base, (after.sessions sid).stack)) :
    Faithful schema after := by
  have elsewhere : ∀ layer, Elsewhere after sid layer → Elsewhere state sid layer := by
    rintro layer ⟨other, ne, mem⟩
    exact ⟨other, ne, kept other ne ▸ mem⟩
  intro other
  by_cases same : other = sid
  · subst same
    exact ⟨sound.base, sound.foreign, sound.follows, sound.nested, sound.shared,
      fun layer mem layer' held => sound.apart layer mem layer' (elsewhere layer' held),
      fun layer held => sound.outside layer (elsewhere layer held)⟩
  · have before := faithful other
    have mine : ∀ layer ∈ (after.sessions other).stack, Elsewhere state sid layer :=
      fun layer mem => ⟨other, same, kept other same ▸ mem⟩
    rw [kept other same] at mine ⊢
    refine ⟨sound.base, sound.foreign, before.follows, before.nested,
      fun layer mem => sound.outside layer (mine layer mem), ?_, ?_⟩
    · rintro layer mem layer' ⟨third, ne, member'⟩
      by_cases moved : third = sid
      · subst moved
        exact (sound.apart layer' member' layer (mine layer mem)).symm
      · exact before.apart layer mem layer' ⟨third, ne, kept third moved ▸ member'⟩
    · rintro layer ⟨third, ne, mem⟩
      by_cases moved : third = sid
      · subst moved
        exact sound.shared layer mem
      · exact sound.outside layer ⟨third, moved, kept third moved ▸ mem⟩

/-- The row can be written as a typed row: no mark is there to hide it. -/
structure Exposed (state : CatalogState ρ) (sid : Nat) (key : Key) : Prop where
  /-- It was never deleted, nor written as an unparsed row, by what is committed. -/
  published : state.base.compat.entry key = none
  /-- The innermost draft may have deleted it. -/
  top : ∀ top ∈ (state.sessions sid).stack.head?, top.compat.rows.get key = none
  outer : ∀ draft ∈ (state.sessions sid).stack.tail, draft.compat.entry key = none
  elsewhere : ∀ draft, Elsewhere state sid draft → draft.compat.entry key = none

/-- No other session has written the row as a typed row. -/
def Unheld (state : CatalogState ρ) (sid : Nat) (key : Key) : Prop :=
  ∀ draft, Elsewhere state sid draft → ¬ draft.Holds key

/-- A write that cannot leave a typed row behind a mark. -/
def Exposes (schema : Schema ρ α) (state : CatalogState ρ) : Nat × Op (Write ρ) → Prop
  | (sid, .write (.upsert key row)) =>
    if CatalogDraft.writesTyped schema (.upsert key row) then
      Foreign schema key row ∧ Exposed state sid key
    else Unheld state sid key
  | (sid, .write (.delete key)) => Unheld state sid key
  | _ => True

theorem elsewhere_fst (held : Elsewhere state sid layer) : Elsewhere state.fst sid layer.1 := by
  obtain ⟨other, ne, mem⟩ := held
  exact ⟨other, ne, mem_map_of_mem mem⟩

/-- A write, to a draft that is there. -/
theorem Sound.write_top {write : Write ρ}
    (sound : Sound schema (Elsewhere state sid) (state.base, top :: outer))
    (exposes : Exposes schema state.fst (sid, .write write))
    (unshadowed : Exposed state.fst sid write.key → top.1.compat.rows.get write.key = none)
    (above : Exposed state.fst sid write.key → ∀ layer ∈ outer, layer.1.compat.entry write.key = none) :
    Sound schema (Elsewhere state sid)
      (state.base, (top.1.write schema write, top.2 ++ [write]) :: outer) := by
  have unheld : Unheld state.fst sid write.key →
      ∀ other, Elsewhere state sid other → ¬ other.1.Holds write.key :=
    fun unheld other held => unheld other.1 (elsewhere_fst held)
  cases write with
  | upsert key row =>
    simp only [Exposes] at exposes
    split at exposes
    next typed =>
      obtain ⟨foreign, exposed⟩ := exposes
      exact sound.write_typed typed foreign (unshadowed exposed) exposed.published (above exposed)
        fun other held => exposed.elsewhere other.1 (elsewhere_fst held)
    next untyped => exact sound.write_compat (Bool.eq_false_iff.mpr untyped) (unheld exposes)
  | delete key => exact sound.write_compat rfl (unheld exposes)

theorem Sound.write {write : Write ρ}
    (sound : Sound schema (Elsewhere state sid) (state.base, (state.sessions sid).stack))
    (exposes : Exposes schema state.fst (sid, .write write)) :
    Sound schema (Elsewhere state sid) (state.base,
      written ((drafts ρ).prod (journals ρ))
        (fun layer => (layer.1.write schema write, layer.2 ++ [write]))
        (state.sessions sid).stack) := by
  have ready := sound.moves (.ensured _ _)
  cases levels : (state.sessions sid).stack with
  | nil =>
    rw [levels] at ready
    exact ready.write_top exposes (fun _ => rfl) (by simp)
  | cons top outer =>
    rw [levels] at ready
    refine ready.write_top exposes (fun exposed => ?_) fun exposed layer mem => ?_
    · exact exposed.top top.1 (by simp [System.fst, Session.fst, levels])
    · refine exposed.outer layer.1 ?_
      simp only [System.fst, Session.fst, levels, map_cons, tail_cons]
      exact mem_map_of_mem mem

theorem Faithful.step {event : Nat × Op (Write ρ)} (faithful : Faithful schema state)
    (exposes : Exposes schema state.fst event)
    (taken : recordedStep schema state event = some after) : Faithful schema after := by
  obtain ⟨sid, op⟩ := event
  simp only [recordedStep, Layers.step, some.injEq] at taken
  subst taken
  refine faithful.update (fun other ne => if_neg ne) ?_
  simp only [if_true]
  cases op with
  | write change => exact (faithful sid).write exposes
  | _ => exact (faithful sid).moves (Session.step_moves _ _ _ _ (by simp))

end FastPg.Catalog
