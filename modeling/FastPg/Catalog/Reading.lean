import FastPg.Catalog.Surviving

/-! # Reading the catalog

The rows that are read of a relation, taken apart row by row: what the drafts
and the shared snapshot say of a row decides, and the built-in rows are read
where they say nothing. With the journals of the drafts this gives what a
session reads as the last writes that survived.
-/

namespace FastPg.Catalog

open Assoc Layers Transition Option
open List hiding insert lookup

variable {ρ α : Type} {schema : Schema ρ α}

/-! ## The snapshot of a session -/

/-- The committed writes, and the session's own, in the order they count. -/
def survivingWrites (committed : List (Write ρ)) (stack : List (Recorded ρ)) : List (Write ρ) :=
  stack.foldr (fun layer journal => journal ++ layer.2) committed

/-- The writes that count for a session. -/
def RecordedState.writes (state : RecordedState ρ) (sid : Nat) : List (Write ρ) :=
  survivingWrites state.base.2 (state.sessions sid).stack

variable {state after : RecordedState ρ} {sid : Nat} {matching : ρ → Bool} {id : RowId}
  {rows : Dict RowId ρ} (late : List (Synthetic ρ α))

/-- A release moves writes to the draft outside, which counts for the session
    just the same. -/
theorem writes_commitSub (taken : recordedStep schema state (sid, .commitSub) = some after)
    (reader : Nat) :
    after.writes reader = state.writes reader := by
  simp only [recordedStep, step, some.injEq] at taken
  subst taken
  simp only [RecordedState.writes, Session.step]
  by_cases own : reader = sid
  · subst own
    rw [if_pos rfl]
    split
    next levels =>
      rw [levels]
      simp [survivingWrites, Layering.prod, journals]
    next => rfl
  · rw [if_neg own]
    split <;> rfl

theorem visibleSnapshot_compat {base : CatalogSnapshot ρ} {stack : List (CatalogDraft ρ)} {key : Key}
    (published : base.compat.entry key = none)
    (unmarked : ∀ draft ∈ stack, draft.compat.entry key = none) :
    (visibleSnapshot base stack).compat.entry key = none := by
  induction stack with
  | nil => exact published
  | cons top outer ih =>
    obtain ⟨here, above⟩ := forall_mem_cons.mp unmarked
    have marked := CatalogDraft.compat_publish top (visibleSnapshot base outer) key
    rw [here, ih above] at marked
    exact marked

/-- The snapshot says of every row what the last surviving write says. -/
theorem visibleSnapshot_follows {others : Recorded ρ → Prop}
    {base : CatalogSnapshot ρ × List (Write ρ)} {stack : List (Recorded ρ)}
    (sound : Sound schema others (base, stack)) :
    let snapshot := visibleSnapshot base.1 (stack.map Prod.fst)
    (∀ key, snapshot.entry key = lastWrite (survivingWrites base.2 stack) key) ∧
      ∀ key row, snapshot.typed.get key = some row → Foreign schema key row := by
  induction stack with
  | nil => exact ⟨sound.base, sound.foreign⟩
  | cons top outer ih =>
    obtain ⟨entry, foreign⟩ := ih (sound.move .drop)
    have follows := sound.follows top (mem_cons_self ..)
    have clear : top.1.Clear (visibleSnapshot base.1 (outer.map Prod.fst)).compat := by
      intro key holds
      apply visibleSnapshot_compat (sound.shared top (.head _) key holds)
      intro draft mem
      obtain ⟨layer, present, rfl⟩ := mem_map.mp mem
      exact (pairwise_cons.mp sound.nested).1 layer present key holds
    refine ⟨fun key => ?_, fun key row present => ?_⟩
    · have published := CatalogDraft.entry_publish follows.tidy clear key
      rw [follows.entry, entry] at published
      exact published.trans (lastWrite_append ..).symm
    · have published := CatalogDraft.typed_publish top.1
        (visibleSnapshot base.1 (outer.map Prod.fst)) key
      have found := published.symm.trans present
      cases typed : top.1.typed.get key with
      | none => exact foreign key row (by simpa [typed] using found)
      | some mutation =>
        rw [typed] at found
        exact follows.foreign key row (typed.trans (congrArg some found))

/-! ## Compatibility rows -/

theorem get_foldl_erase (relation : CatalogRelation) (id : RowId) (tombstones : List Key)
    (rows : Dict RowId ρ) :
    (tombstones.foldl (fun rows key => if key.1 = relation then rows.erase key.2 else rows) rows).get
      id = if (relation, id) ∈ tombstones then none else rows.get id := by
  induction tombstones generalizing rows with
  | nil => simp
  | cons key rest ih =>
    obtain ⟨other, dead⟩ := key
    rw [foldl_cons, ih]
    by_cases later : (relation, id) ∈ rest
    · simp [later]
    · by_cases here : other = relation
      · subst here
        simp [later, Prod.ext_iff, eq_comm]
      · simp [later, here, Ne.symm here]

theorem get_applyToRows (compat : CompatCatalogRows ρ) (relation : CatalogRelation)
    (rows : Dict RowId ρ) (id : RowId) :
    (compat.applyToRows relation rows).get id =
      (compat.entry (relation, id)).elim (rows.get id) fun row => row := by
  have folded := @Dict.foldl_observe Key ρ _ _ _
    (fun rows entry => if entry.1.1 = relation then rows.insert entry.1.2 entry.2 else rows)
    (fun rows : Dict RowId ρ => rows.get id) (fun row _ => some row) (relation, id)
    (by
      rintro state ⟨other, k⟩ row
      by_cases here : other = relation
      · simp [here]
      · simp [here]) compat.rows
    (compat.tombstones.foldl
      (fun rows key => if key.1 = relation then rows.erase key.2 else rows) rows)
  rw [CompatCatalogRows.applyToRows, folded, get_foldl_erase]
  cases found : compat.rows.get (relation, id) with
  | none =>
    by_cases dead : (relation, id) ∈ compat.tombstones <;>
      simp [CompatCatalogRows.entry, found, dead]
  | some row => simp [CompatCatalogRows.entry, found]

/-! ## Typed and built-in rows -/

theorem get_insertMatchingRow (matching : ρ → Bool) (rows : Dict RowId ρ) (id other : RowId)
    (row : ρ) :
    (insertMatchingRow matching rows id row).get other =
      if id = other ∧ matching row = true then some row else rows.get other := by
  unfold insertMatchingRow
  split <;> simp_all

theorem get_insertTypedRows (typed : Dict Key ρ) (relation : CatalogRelation) (matching : ρ → Bool)
    (rows : Dict RowId ρ) (id : RowId) :
    (insertTypedRows typed relation matching rows).get id =
      ((typed.get (relation, id)).filter matching).or (rows.get id) := by
  have folded := @Dict.foldl_observe Key ρ _ _ _
    (fun rows entry =>
      if entry.1.1 = relation then insertMatchingRow matching rows entry.1.2 entry.2 else rows)
    (fun rows : Dict RowId ρ => rows.get id)
    (fun row found => if matching row then some row else found) (relation, id)
    (by
      rintro state ⟨other, k⟩ row
      by_cases here : other = relation
      · by_cases same : k = id <;> simp [here, same, get_insertMatchingRow]
      · simp [here]) typed rows
  rw [insertTypedRows, folded]
  cases typed.get (relation, id) with
  | none => rfl
  | some row => by_cases kept : matching row = true <;> simp [kept, filter_some]

theorem get_earlyRows {relation : CatalogRelation}
    (absent : ∀ entry ∈ schema.early relation, entry.1 ≠ id) :
    (earlyRows schema relation matching).get id = none := by
  unfold earlyRows
  have folded : ∀ (entries : List (RowId × ρ)) (rows : Dict RowId ρ),
      (∀ entry ∈ entries, entry.1 ≠ id) → rows.get id = none →
      (entries.foldl (fun rows entry => insertMatchingRow matching rows entry.1 entry.2) rows).get
        id = none := by
    intro entries
    induction entries with
    | nil => exact fun _ _ none => none
    | cons entry rest ih =>
      intro rows absent unread
      obtain ⟨here, later⟩ := forall_mem_cons.mp absent
      apply ih _ later
      rw [get_insertMatchingRow, if_neg (fun both => here both.1), unread]
  exact folded _ _ absent rfl

/-- A column exists if a row for it was read. -/
theorem mem_existing {column : α} :
    column ∈ rows.entries.filterMap (fun entry => schema.attributeKey entry.2) ↔
      ∃ id row, rows.get id = some row ∧ schema.attributeKey row = some column := by
  simp only [mem_filterMap, Prod.exists, Dict.mem_entries]

variable [DecidableEq α]

/-- A row that is not made up is left alone. -/
theorem get_synthesize_of_absent (existing : List α) (rows : Dict RowId ρ)
    (absent : ∀ synthetic ∈ late, synthetic.id ≠ id) :
    (synthesize matching existing rows late).get id = rows.get id := by
  induction late generalizing existing rows with
  | nil => rfl
  | cons synthetic rest ih =>
    obtain ⟨here, later⟩ := forall_mem_cons.mp absent
    have kept : (insertMatchingRow matching rows synthetic.id synthetic.row).get id = rows.get id := by
      rw [get_insertMatchingRow, if_neg fun both => here both.1]
    unfold synthesize
    split
    · rw [ih _ _ later, kept]
    · split
      · exact ih _ _ later
      · rw [ih _ _ later, kept]

/-- What is made up depends on the columns that exist. -/
theorem get_synthesize_congr {existing existing' : List α} {rows' : Dict RowId ρ}
    (agree : ∀ synthetic ∈ late, ∀ column, synthetic.column = some column →
      (column ∈ existing ↔ column ∈ existing')) (same : rows.get id = rows'.get id) :
    (synthesize matching existing rows late).get id =
      (synthesize matching existing' rows' late).get id := by
  induction late generalizing existing existing' rows rows' with
  | nil => exact same
  | cons synthetic rest ih =>
    obtain ⟨here, later⟩ := forall_mem_cons.mp agree
    have inserted : (insertMatchingRow matching rows synthetic.id synthetic.row).get id =
        (insertMatchingRow matching rows' synthetic.id synthetic.row).get id := by
      simp only [get_insertMatchingRow, same]
    cases made : synthetic.column with
    | none =>
      simp only [synthesize, made]
      exact ih later inserted
    | some column =>
      simp only [synthesize, made, here column made]
      split
      · exact ih later same
      · refine ih (fun row mem other named => ?_) inserted
        simp only [mem_cons, later row mem other named]

theorem get_typedRows {typed : Dict Key ρ}
    (foreign : ∀ key row, typed.get key = some row → Foreign schema key row)
    (relation : CatalogRelation) (matching : ρ → Bool) (id : RowId) :
    (typedRows schema typed relation matching).get id =
      (typed.get (relation, id)).elim ((typedRows schema .empty relation matching).get id)
        fun row => (some row).filter matching := by
  cases found : typed.get (relation, id) with
  | some row =>
    obtain ⟨early, late⟩ := foreign _ _ found
    rw [typedRows, get_synthesize_of_absent _ _ _ fun synthetic mem => (late synthetic mem).1,
      get_insertTypedRows, found, get_earlyRows early]
    simp
  | none =>
    refine get_synthesize_congr _ (fun synthetic mem column named => ?_) ?_
    · simp only [mem_existing, get_insertTypedRows, Dict.get_empty, filter_none,
        none_or]
      constructor
      · -- A typed row of the column would not be foreign.
        rintro ⟨other, row, read, made⟩
        rcases or_eq_some_iff.mp read with own | ⟨_, early⟩
        · have stored := (filter_eq_some_iff.mp own).1
          have apart := ((foreign _ _ stored).2 synthetic mem).2 (by simp [named])
          exact absurd (named.trans made.symm) apart
        · exact ⟨other, row, early, made⟩
      · -- A typed row does not stand in for an early one.
        rintro ⟨other, row, early, made⟩
        refine ⟨other, row, ?_, made⟩
        cases stored : typed.get (relation, other) with
        | none => simpa using early
        | some own =>
          rw [get_earlyRows (foreign _ _ stored).1] at early
          cases early
    · simp [get_insertTypedRows, found]

/-! ## The rows of a relation -/

/-- The rows that are read without any write. -/
def builtinRows (schema : Schema ρ α) (relation : CatalogRelation) (matching : ρ → Bool) :
    List (RowId × ρ) :=
  catalogRowsMatching schema .empty relation matching

theorem mem_catalogRowsMatching (snapshot : CatalogSnapshot ρ) (relation : CatalogRelation)
    (matching : ρ → Bool) (id : RowId) (row : ρ) :
    (id, row) ∈ catalogRowsMatching schema snapshot relation matching ↔
      matching row = true ∧ (snapshot.compat.entry (relation, id)).elim
        ((typedRows schema snapshot.typed relation matching).get id) (fun row => row) = some row := by
  rw [catalogRowsMatching, mem_filter, Dict.mem_entries, get_applyToRows]
  exact And.comm

/-- What the snapshot says of a row decides. -/
theorem mem_rows_iff {snapshot : CatalogSnapshot ρ}
    (foreign : ∀ key row, snapshot.typed.get key = some row → Foreign schema key row)
    (relation : CatalogRelation) (matching : ρ → Bool) (id : RowId) (row : ρ) :
    (id, row) ∈ catalogRowsMatching schema snapshot relation matching ↔
      match snapshot.entry (relation, id) with
      | some written => written = some row ∧ matching row = true
      | none => (id, row) ∈ builtinRows schema relation matching := by
  rw [mem_catalogRowsMatching, get_typedRows foreign, CatalogSnapshot.entry]
  cases marked : snapshot.compat.entry (relation, id) with
  | some written => exact And.comm
  | none =>
    cases stored : snapshot.typed.get (relation, id) with
    | some own =>
      simp only [Option.elim, Option.none_or, Option.map_some, Option.filter_eq_some_iff,
        some.injEq]
      grind
    | none =>
      simp only [Option.elim, Option.none_or, Option.map_none, builtinRows,
        mem_catalogRowsMatching]
      rfl

/-! ## The last surviving writes -/

/-- The built-in rows overridden by the last write to each row. -/
def Survives (schema : Schema ρ α) (writes : List (Write ρ)) (relation : CatalogRelation)
    (matching : ρ → Bool) (id : RowId) (row : ρ) : Prop :=
  match lastWrite writes (relation, id) with
  | some written => written = some row ∧ matching row = true
  | none => (id, row) ∈ builtinRows schema relation matching

theorem Faithful.reads (faithful : Faithful schema state) (sid : Nat) (relation : CatalogRelation)
    (matching : ρ → Bool) (id : RowId) (row : ρ) :
    (id, row) ∈ readRows schema state.fst sid relation matching ↔
      Survives schema (state.writes sid) relation matching id row := by
  obtain ⟨entry, foreign⟩ := visibleSnapshot_follows (faithful sid)
  have read := mem_rows_iff foreign relation matching id row
  rw [entry] at read
  exact read

/-- As long as no typed row is written where a mark could hide it, every session
    reads the last surviving write of each row, and a release changes nothing. -/
theorem rows_survive {state : RecordedState ρ}
    (reached : Reaches (recordedStep schema) (fun state => Exposes schema state.fst) .initial state)
    (sid : Nat) (relation : CatalogRelation) (matching : ρ → Bool) (id : RowId) (row : ρ) :
    ((id, row) ∈ readRows schema state.fst sid relation matching ↔
      Survives schema (state.writes sid) relation matching id row) ∧
    ∀ releasing after, recordedStep schema state (releasing, .commitSub) = some after →
      ((id, row) ∈ readRows schema after.fst sid relation matching ↔
        (id, row) ∈ readRows schema state.fst sid relation matching) := by
  have faithful : Faithful schema state :=
    reached.invariant .initial fun _ _ _ faithful exposes taken => faithful.step exposes taken
  refine ⟨faithful.reads sid relation matching id row, fun releasing after taken => ?_⟩
  have released : Faithful schema after := faithful.step (show Exposes schema state.fst (releasing, .commitSub) from trivial) taken
  rw [released.reads, faithful.reads, writes_commitSub taken]

/-! ## Two runs -/

instance (schema : Schema ρ α) (key : Key) (row : ρ) : Decidable (Foreign schema key row) :=
  inferInstanceAs (Decidable (_ ∧ _))

/-- Only the given session holds drafts. -/
def Alone (sid : Nat) (state : RecordedState ρ) : Prop :=
  ∀ other, other ≠ sid → (state.sessions other).stack = []

/-- What is left to check of a write if no other session holds drafts. -/
def exposesAlone (schema : Schema ρ α) (sid : Nat) (state : RecordedState ρ)
    (event : Nat × Op (Write ρ)) : Bool :=
  event.1 == sid && match event.2 with
    | .write (.upsert key row) =>
      let stack := (state.fst.sessions sid).stack
      decide (Foreign schema key row) && (state.base.1.compat.entry key).isNone &&
        stack.head?.all (fun top => (top.compat.rows.get key).isNone) &&
        stack.tail.all fun draft => (draft.compat.entry key).isNone
    | _ => true

variable {event : Nat × Op (Write ρ)}

theorem Alone.elsewhere (alone : Alone sid state) (draft : CatalogDraft ρ) :
    ¬ Elsewhere state.fst sid draft := by
  rintro ⟨other, ne, mem⟩
  simp [System.fst, Session.fst, alone other ne] at mem

theorem exposesAlone_sound (alone : Alone sid state)
    (checked : exposesAlone schema sid state event = true) :
    Exposes schema state.fst event := by
  obtain ⟨actor, op⟩ := event
  have unheld : ∀ key, Unheld state.fst sid key := fun _ draft held => absurd held (alone.elsewhere draft)
  simp only [exposesAlone, Bool.and_eq_true, beq_iff_eq] at checked
  obtain ⟨rfl, checked⟩ := checked
  cases op with
  | write change =>
    cases change with
    | delete key => exact unheld key
    | upsert key row =>
      simp only [Bool.and_eq_true, decide_eq_true_eq, Option.isNone_iff_eq_none,
        List.all_eq_true, Option.all_eq_true] at checked
      obtain ⟨⟨⟨foreign, published⟩, top⟩, outer⟩ := checked
      simp only [Exposes]
      split
      · exact ⟨foreign, published, top, outer, fun draft held => absurd held (alone.elsewhere draft)⟩
      · exact unheld key
  | _ => trivial

theorem Alone.step (alone : Alone sid state) (checked : exposesAlone schema sid state event = true)
    (taken : recordedStep schema state event = some after) : Alone sid after := by
  simp only [exposesAlone, Bool.and_eq_true, beq_iff_eq] at checked
  simp only [recordedStep, Layers.step, some.injEq] at taken
  subst taken
  intro other ne
  simp only [checked.1, ne, if_false]
  exact alone other ne

/-- A catalog whose `pg_class` has one built-in row. -/
def oneTable : Schema Nat Nat where
  parses := fun _ _ => true
  early := fun relation => if relation = .pgClass then [(1, 10)] else []
  late := fun _ => []
  attributeKey := fun _ => none

/-- A row is written, deleted in a subtransaction and written again there. -/
def rewriting : List (Nat × Op (Write Nat)) :=
  [(1, .beginExplicit), (1, .write (.upsert (.pgClass, 2) 5)), (1, .beginSub),
    (1, .write (.delete (.pgClass, 2))), (1, .write (.upsert (.pgClass, 2) 7)), (1, .commitSub),
    (1, .commitExplicit)]

theorem rows_survive_rewriting : ∃ state, run (recordedStep oneTable) .initial rewriting = some state ∧
    (2, 7) ∈ readRows oneTable state.fst 3 .pgClass fun _ => true := by
  obtain ⟨state, ran⟩ : ∃ state, run (recordedStep oneTable) .initial rewriting = some state := ⟨_, rfl⟩
  have reached : Reaches (recordedStep oneTable) (fun state => Exposes oneTable state.fst) .initial
      state :=
    .of_run (fun _ _ _ (alone : Alone 1 _) checked taken => alone.step checked taken)
      (fun _ _ alone checked => exposesAlone_sound alone checked) .refl (fun _ _ => rfl) (by decide) ran
  refine ⟨state, ran, (rows_survive reached 3 .pgClass _ 2 7).1.mpr ?_⟩
  cases ran
  exact ⟨rfl, rfl⟩

/-- A row is written, deleted and written again, each time in a transaction of
    its own. -/
def deletedBetween : List (Nat × Op (Write Nat)) :=
  [(1, .write (.upsert (.pgClass, 2) 5)), (1, .commitImplicit), (1, .write (.delete (.pgClass, 2))),
    (1, .commitImplicit), (1, .write (.upsert (.pgClass, 2) 7)), (1, .commitImplicit)]

/-- The tombstone of the deletion hides the last write. -/
theorem rewritten_row_hidden : ∃ state,
    run (recordedStep oneTable) .initial deletedBetween = some state ∧
    Survives oneTable (state.writes 1) .pgClass (fun _ => true) 2 7 ∧
    readRows oneTable state.fst 1 .pgClass (fun _ => true) = [(1, 10)] :=
  ⟨_, rfl, ⟨rfl, rfl⟩, by decide⟩

end FastPg.Catalog
