import Mathlib
import FastPg.Catalog.Reading

/-! # Scans and counts of catalog rows

A scan inserts built-in, typed and made-up rows into a map by their row ids, later ones
over earlier ones. With filters it inserts only those that match, so an earlier version
can stay where the current one does not match; and it makes rows up by what it has
inserted so far. The count of a relation's rows goes through the row ids on its own.
-/

namespace FastPg.Catalog

open List Option

variable {ρ α : Type} [DecidableEq α] {schema : Schema ρ α} {matching : ρ → Bool}

/-! ## What a scan inserts -/

/-- The made-up rows that are added where these columns exist already. -/
def chosen : List α → List (Synthetic ρ α) → List (Synthetic ρ α)
  | _, [] => []
  | existing, row :: rest => match row.column with
    | none => row :: chosen existing rest
    | some column =>
      if column ∈ existing then chosen existing rest else row :: chosen (column :: existing) rest

def insertAll (matching : ρ → Bool) (entries : List (RowId × ρ)) (rows : Dict RowId ρ) :
    Dict RowId ρ :=
  entries.foldl (fun rows entry => insertMatchingRow matching rows entry.1 entry.2) rows

def typedEntries (typed : Dict Key ρ) (relation : CatalogRelation) : List (RowId × ρ) :=
  (typed.entries.filter fun entry => entry.1.1 = relation).map fun entry => (entry.1.2, entry.2)

/-- The rows of one row id, the latest first. -/
def versionsAt (entries : List (RowId × ρ)) (id : RowId) : List ρ :=
  ((entries.filter fun entry => entry.1 = id).map Prod.snd).reverse

theorem get_insertAll (entries : List (RowId × ρ)) (rows : Dict RowId ρ) (id : RowId) :
    (insertAll matching entries rows).get id =
      ((versionsAt entries id).find? matching).or (rows.get id) := by
  induction entries generalizing rows with
  | nil => rfl
  | cons entry rest ih =>
    have split : versionsAt (entry :: rest) id =
        versionsAt rest id ++ (if entry.1 = id then [entry.2] else []) := by
      by_cases same : entry.1 = id <;> simp [versionsAt, same]
    rw [insertAll, foldl_cons, ← insertAll, ih, get_insertMatchingRow, split, find?_append,
      Option.or_assoc]
    congr 1
    by_cases same : entry.1 = id <;> by_cases good : matching entry.2 = true <;> simp [same, good]

theorem synthesize_eq (existing : List α) (rows : Dict RowId ρ) (late : List (Synthetic ρ α)) :
    synthesize matching existing rows late =
      insertAll matching ((chosen existing late).map fun row => (row.id, row.row)) rows := by
  fun_induction synthesize matching existing rows late with
  | case1 => rfl
  | case2 existing rows row rest column ih => simp [chosen, column, ih, insertAll]
  | case3 existing rows row rest name column mem ih => simp [chosen, column, mem, ih]
  | case4 existing rows row rest name column mem ih => simp [chosen, column, mem, ih, insertAll]

theorem insertTypedRows_eq (typed : Dict Key ρ) (relation : CatalogRelation) (rows : Dict RowId ρ) :
    insertTypedRows typed relation matching rows =
      insertAll matching (typedEntries typed relation) rows := by
  rw [insertTypedRows, insertAll, typedEntries, foldl_map, foldl_filter]
  simp

/-! ## Scans -/

/-- How a scan finds typed rows, and which rows it makes up beside those it has read. -/
structure Path (ρ α : Type) where
  typed : Dict Key ρ
  makeUp : List ρ → List (Synthetic ρ α)

section Scan

variable (schema) (relation : CatalogRelation) (matching : ρ → Bool) (path : Path ρ α)

def readBefore : Dict RowId ρ :=
  insertTypedRows path.typed relation matching (earlyRows schema relation matching)

def scanned : Dict RowId ρ :=
  let rows := readBefore schema relation matching path
  synthesize matching (rows.entries.filterMap fun entry => schema.attributeKey entry.2) rows
    (path.makeUp (rows.entries.map Prod.snd))

def madeUp : List (Synthetic ρ α) :=
  let rows := readBefore schema relation matching path
  chosen (rows.entries.filterMap fun entry => schema.attributeKey entry.2)
    (path.makeUp (rows.entries.map Prod.snd))

/-- Every version of the rows that a scan comes across. -/
def inserted : List (RowId × ρ) :=
  schema.early relation ++ typedEntries path.typed relation ++
    (madeUp schema relation matching path).map fun row => (row.id, row.row)

def versions (id : RowId) : List ρ := versionsAt (inserted schema relation matching path) id

theorem get_scanned (id : RowId) : (scanned schema relation matching path).get id =
    (versions schema relation matching path id).find? matching := by
  have whole : scanned schema relation matching path =
      insertAll matching (inserted schema relation matching path) .empty := by
    simp only [scanned, synthesize_eq, readBefore, insertTypedRows_eq, inserted, madeUp,
      insertAll, foldl_append, earlyRows]
  rw [whole, get_insertAll, Dict.get_empty, or_none, versions]

end Scan

/-- The rows in the order of their ids, less those that do not match. -/
def inOrder (matching : ρ → Bool) (rows : Dict RowId ρ) : List (RowId × ρ) :=
  (rows.entries.insertionSort fun first second => first.1 ≤ second.1).filter fun entry =>
    matching entry.2

theorem mem_inOrder {rows : Dict RowId ρ} {entry : RowId × ρ} :
    entry ∈ inOrder matching rows ↔ (rows.get entry.1).filter matching = some entry.2 := by
  obtain ⟨id, row⟩ := entry
  rw [inOrder, mem_filter, mem_insertionSort, Dict.mem_entries, filter_eq_some_iff]

/-- Rows come in order, so that it is enough to compare what stands at each id. -/
theorem inOrder_eq_iff {rows rows' : Dict RowId ρ} :
    inOrder matching rows = inOrder matching rows' ↔
      ∀ id, (rows.get id).filter matching = (rows'.get id).filter matching := by
  constructor
  · intro same id
    refine ext fun row => ?_
    rw [← @mem_inOrder _ _ _ (id, row), same, mem_inOrder]
  · intro same
    have sorted (rows : Dict RowId ρ) :
        (inOrder matching rows).Pairwise fun first second => first.1 ≤ second.1 := by
      have total : Std.Total fun first second : RowId × ρ => first.1 ≤ second.1 :=
        ⟨fun first second => le_total first.1 second.1⟩
      have trans : IsTrans (RowId × ρ) fun first second => first.1 ≤ second.1 :=
        ⟨fun _ _ _ => le_trans⟩
      exact (pairwise_insertionSort _ rows.entries).filter _
    have distinct (rows : Dict RowId ρ) : (inOrder matching rows).Nodup :=
      ((perm_insertionSort ..).nodup_iff.mpr rows.keyed.of_map).filter _
    refine List.Perm.eq_of_pairwise ?_ (sorted rows) (sorted rows') ?_
    · intro first second mem mem' le ge
      have id : first.1 = second.1 := le_antisymm le ge
      rw [mem_inOrder, id, same] at mem
      rw [mem_inOrder] at mem'
      exact Prod.ext id (some.inj (mem.symm.trans mem'))
    · refine (perm_ext_iff_of_nodup (distinct rows) (distinct rows')).mpr fun entry => ?_
      rw [mem_inOrder, mem_inOrder, same]

/-! ## Filtered scans -/

def pgDescriptionRelationOid : Nat := 2609

/-- What a list of filters comes to: which rows match, and, if `attrelid` is given, which
    columns are looked up and which are made up. -/
structure Filters (ρ α : Type) where
  matching : ρ → Bool
  columns : Option ((α → Bool) × (Synthetic ρ α → Bool))

/-- What is fixed, and the comments on functions of operators: which of them are made up
    depends on the descriptions at hand. -/
structure Described (ρ α : Type) extends Schema ρ α where
  describe : List ρ → List (Synthetic ρ α)

variable (fixed : Described ρ α) (snapshot : CatalogSnapshot ρ) (relation : CatalogRelation)

/-- The columns in `columns_by_relation`, which keeps one row for each of them. -/
def columnsByRelation (wanted : α → Bool) : Dict Key ρ where
  entries := snapshot.typed.entries.filter fun entry =>
    (fixed.attributeKey entry.2).any wanted && snapshot.typed.entries.all fun other =>
      !(other.1.1 = .pgAttribute && fixed.attributeKey other.2 = fixed.attributeKey entry.2 &&
        entry.1.2 < other.1.2)
  keyed := snapshot.typed.keyed.sublist (List.filter_sublist.map Prod.fst)

def catalogPath : Path ρ α :=
  ⟨snapshot.typed, if relation = .other pgDescriptionRelationOid then fixed.describe
    else fun _ => fixed.late relation⟩

def filterPath (filters : Filters ρ α) : Path ρ α :=
  match relation, filters.columns with
  | .pgAttribute, some (wanted, makes) =>
    ⟨columnsByRelation fixed snapshot wanted, fun _ => (fixed.late .pgAttribute).filter makes⟩
  | _, _ => catalogPath fixed snapshot relation

def catalogRows : List (RowId × ρ) :=
  inOrder (fun _ => true) (snapshot.compat.applyToRows relation
    (scanned fixed.toSchema relation (fun _ => true) (catalogPath fixed snapshot relation)))

def catalogRowsMatchingFilters (filters : Filters ρ α) : List (RowId × ρ) :=
  inOrder filters.matching (snapshot.compat.applyToRows relation
    (scanned fixed.toSchema relation filters.matching (filterPath fixed snapshot relation filters)))

/-- If a version that the filtered scan comes across matches, the current row does; and
    if that matches, it is the latest such version. -/
def Settled (filters : Filters ρ α) (id : RowId) : Prop :=
  let current :=
    (versions fixed.toSchema relation (fun _ => true) (catalogPath fixed snapshot relation) id).head?
  let met := versions fixed.toSchema relation filters.matching
    (filterPath fixed snapshot relation filters) id
  ((∃ row ∈ met, filters.matching row) → ∃ row ∈ current, filters.matching row) ∧
    ∀ row ∈ current, filters.matching row → met.find? filters.matching = some row

theorem find?_eq_filter_iff {current : Option ρ} {met : List ρ} :
    met.find? matching = current.filter matching ↔
      ((∃ row ∈ met, matching row) → ∃ row ∈ current, matching row) ∧
        ∀ row ∈ current, matching row → met.find? matching = some row := by
  cases found : met.find? matching with
  | none =>
    have none_ : ¬ ∃ row ∈ met, matching row := by simpa using found
    cases current with
    | none => simp [none_]
    | some row => by_cases good : matching row = true <;> simp [none_, good, filter_some]
  | some row =>
    have some_ : ∃ row ∈ met, matching row := by
      exact ⟨row, mem_of_find?_eq_some found, find?_some found⟩
    cases current with
    | none => simp [some_]
    | some row' =>
      by_cases good : matching row' = true <;> simp [some_, good, filter_some]

/-- The made-up rows that the count knows of. It has no case for `pg_description`. -/
def madeUpCounted : List (Synthetic ρ α) :=
  if relation = .other pgDescriptionRelationOid then []
  else chosen ((fixed.early relation ++ typedEntries snapshot.typed relation).filterMap fun entry =>
    fixed.attributeKey entry.2) (fixed.late relation)

def countedIds : Finset RowId :=
  ((fixed.early relation ++ typedEntries snapshot.typed relation).map Prod.fst ++
    (madeUpCounted fixed snapshot relation).map Synthetic.id).toFinset

/-- `insert_compat_row_ids` -/
def insertCompatRowIds (ids : Finset RowId) (compat : CompatCatalogRows ρ) : Finset RowId :=
  ids \ ((compat.tombstones.filter fun key => key.1 = relation).map Prod.snd).toFinset ∪
    ((compat.rows.entries.filter fun entry => entry.1.1 = relation).map fun entry => entry.1.2).toFinset

def catalogRowCount : Nat :=
  (insertCompatRowIds relation (countedIds fixed snapshot relation) snapshot.compat).card

/-- A row that reading makes up, and no compatibility row or tombstone hides, has the id
    of a built-in or typed row, or is made up by the count as well. -/
def Counted : Prop :=
  ∀ row ∈ madeUp fixed.toSchema relation (fun _ => true) (catalogPath fixed snapshot relation),
    snapshot.compat.entry (relation, row.id) = none →
      row.id ∈ (fixed.early relation ++ typedEntries snapshot.typed relation).map Prod.fst ∨
        row.id ∈ (madeUpCounted fixed snapshot relation).map Synthetic.id

theorem chosen_subset {late : List (Synthetic ρ α)} {existing existing' : List α}
    (less : existing ⊆ existing') : chosen existing' late ⊆ chosen existing late := by
  induction late generalizing existing existing' with
  | nil => exact fun _ => id
  | cons row rest ih =>
    cases column : row.column with
    | none =>
      simp only [chosen, column]
      exact cons_subset_cons _ (ih less)
    | some name =>
      simp only [chosen, column]
      by_cases old : name ∈ existing
      · rw [if_pos old, if_pos (less old)]
        exact ih less
      · rw [if_neg old]
        split
        · exact fun _ mem => .tail _ (ih (cons_subset.mpr ⟨‹_›, less⟩) mem)
        · exact cons_subset_cons _ (ih (cons_subset_cons _ less))

omit [DecidableEq α] in
/-- The rows in the map are among those that were inserted. -/
theorem entries_readBefore (path : Path ρ α) :
    (readBefore fixed.toSchema relation matching path).entries ⊆
      fixed.early relation ++ typedEntries path.typed relation := by
  rintro ⟨id, row⟩ mem
  have whole : readBefore fixed.toSchema relation matching path =
      insertAll matching (fixed.early relation ++ typedEntries path.typed relation) .empty := by
    simp only [readBefore, insertTypedRows_eq, insertAll, List.foldl_append, earlyRows]
  rw [Dict.mem_entries, whole, get_insertAll, Dict.get_empty, Option.or_none] at mem
  have here := List.mem_of_find?_eq_some mem
  simp only [versionsAt, List.mem_reverse, List.mem_map, List.mem_filter, decide_eq_true_eq] at here
  obtain ⟨entry, ⟨there, rfl⟩, rfl⟩ := here
  exact there

theorem madeUpCounted_subset : madeUpCounted fixed snapshot relation ⊆
    madeUp fixed.toSchema relation (fun _ => true) (catalogPath fixed snapshot relation) := by
  intro row mem
  rw [madeUpCounted] at mem
  split at mem
  · cases mem
  · rename_i other
    simp only [madeUp, catalogPath, if_neg other]
    exact chosen_subset (filterMap_subset _ (entries_readBefore fixed relation _)) mem

theorem mem_keys_catalogRows {id : RowId} :
    id ∈ (catalogRows fixed snapshot relation).map Prod.fst ↔
      (snapshot.compat.entry (relation, id)).elim (id ∈ (inserted fixed.toSchema relation
        (fun _ => true) (catalogPath fixed snapshot relation)).map Prod.fst) fun row => row.isSome := by
  have present : id ∈ (catalogRows fixed snapshot relation).map Prod.fst ↔
      ((snapshot.compat.applyToRows relation (scanned fixed.toSchema relation (fun _ => true)
        (catalogPath fixed snapshot relation))).get id).isSome := by
    rw [Option.isSome_iff_exists, List.mem_map]
    constructor
    · rintro ⟨entry, mem, rfl⟩
      exact ⟨entry.2, by simpa using mem_inOrder.mp mem⟩
    · rintro ⟨row, found⟩
      exact ⟨(id, row), mem_inOrder.mpr (by simpa using found), rfl⟩
  rw [present, get_applyToRows, get_scanned]
  cases snapshot.compat.entry (relation, id) with
  | some row => rfl
  | none =>
    rw [elim_none, elim_none, find?_isSome, versions]
    simp [versionsAt]

theorem mem_insertCompatRowIds {id : RowId} (ids : Finset RowId) (compat : CompatCatalogRows ρ) :
    id ∈ insertCompatRowIds relation ids compat ↔
      (compat.entry (relation, id)).elim (id ∈ ids) fun row => row.isSome := by
  have kept : id ∈ ((compat.rows.entries.filter fun entry => entry.1.1 = relation).map
      fun entry => entry.1.2).toFinset ↔ (compat.rows.get (relation, id)).isSome := by
    simp [isSome_iff_exists, ← Dict.mem_entries]
  have dead : id ∈ ((compat.tombstones.filter fun key => key.1 = relation).map
      Prod.snd).toFinset ↔ (relation, id) ∈ compat.tombstones := by
    simp
  rw [insertCompatRowIds, Finset.mem_union, Finset.mem_sdiff, kept, dead, CompatCatalogRows.entry]
  cases compat.rows.get (relation, id) with
  | some row => simp
  | none => by_cases gone : (relation, id) ∈ compat.tombstones <;> simp [gone]

end FastPg.Catalog
