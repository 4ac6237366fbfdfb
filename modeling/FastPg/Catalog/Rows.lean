import FastPg.Lib.Dict
import FastPg.Lib.Layers

/-! # Rows of the Rust catalog

A row of one of six catalog relations is kept in a typed map if its columns can
be parsed; every other row is kept in a compatibility map, and so are the
tombstones of deleted rows. Sessions collect writes in drafts, which are merged
on release, applied to the shared snapshot on commit, and applied to a copy of
it to read. Reading starts from the built-in rows.
-/

namespace FastPg.Catalog

open Assoc Layers

abbrev RowId := Nat

/-- The relations with a typed map, and all others. -/
inductive CatalogRelation where
  | pgNamespace
  | pgClass
  | pgAttribute
  | pgType
  | pgIndex
  | pgConstraint
  | other (oid : Nat)
  deriving DecidableEq, Repr

def CatalogRelation.typed : CatalogRelation → Bool
  | other _ => false
  | _ => true

abbrev Key := CatalogRelation × RowId

/-- A built-in row that is made up while reading. -/
structure Synthetic (ρ α : Type) where
  id : RowId
  row : ρ
  /-- A row of `pg_attribute` is made up unless a row for the column was read. -/
  column : Option α
  deriving DecidableEq, Repr

/-- What is fixed when the server is built. -/
structure Schema (ρ α : Type) where
  /-- Whether the row has the columns that its typed form needs. -/
  parses : CatalogRelation → ρ → Bool
  /-- The built-in rows that are read before the typed map. -/
  early : CatalogRelation → List (RowId × ρ)
  /-- The built-in rows that are made up after it. -/
  late : CatalogRelation → List (Synthetic ρ α)
  /-- `catalog_row_attribute_key` -/
  attributeKey : ρ → Option α

variable {ρ α : Type}

/-! ## The compatibility map -/

structure CompatCatalogRows (ρ : Type) where
  rows : Dict Key ρ
  tombstones : List Key

namespace CompatCatalogRows

def empty : CompatCatalogRows ρ := ⟨.empty, []⟩

def isEmpty (compat : CompatCatalogRows ρ) : Bool :=
  compat.rows.isEmpty && compat.tombstones.isEmpty

def untombstone (compat : CompatCatalogRows ρ) (key : Key) : CompatCatalogRows ρ :=
  { compat with tombstones := compat.tombstones.filter (· ≠ key) }

def insert (compat : CompatCatalogRows ρ) (key : Key) (row : ρ) : CompatCatalogRows ρ :=
  { compat.untombstone key with rows := compat.rows.insert key row }

def delete (compat : CompatCatalogRows ρ) (key : Key) : CompatCatalogRows ρ :=
  ⟨compat.rows.erase key, pushUnique compat.tombstones key⟩

def merge (compat other : CompatCatalogRows ρ) : CompatCatalogRows ρ :=
  other.rows.entries.foldl (fun compat entry => compat.insert entry.1 entry.2)
    (other.tombstones.foldl delete compat)

def applyToRows (compat : CompatCatalogRows ρ) (relation : CatalogRelation)
    (rows : Dict RowId ρ) : Dict RowId ρ :=
  compat.rows.entries.foldl
    (fun rows entry => if entry.1.1 = relation then rows.insert entry.1.2 entry.2 else rows)
    (compat.tombstones.foldl
      (fun rows key => if key.1 = relation then rows.erase key.2 else rows) rows)

end CompatCatalogRows

/-! ## Drafts -/

structure CatalogSnapshot (ρ : Type) where
  /-- The six typed maps. -/
  typed : Dict Key ρ
  compat : CompatCatalogRows ρ

/-- A draft says of a typed row what becomes of it: a new row, or none. -/
structure CatalogDraft (ρ : Type) where
  typed : Dict Key (Option ρ)
  compat : CompatCatalogRows ρ

def CatalogSnapshot.empty : CatalogSnapshot ρ := ⟨.empty, .empty⟩

inductive Write (ρ : Type) where
  | upsert (key : Key) (row : ρ)
  | delete (key : Key)
  deriving DecidableEq, Repr

namespace CatalogDraft

def empty : CatalogDraft ρ := ⟨.empty, .empty⟩

def isEmpty (draft : CatalogDraft ρ) : Bool := draft.typed.isEmpty && draft.compat.isEmpty

def upsertCatalogRow (schema : Schema ρ α) (draft : CatalogDraft ρ) (key : Key) (row : ρ) :
    CatalogDraft ρ :=
  if key.1.typed && schema.parses key.1 row then
    ⟨draft.typed.insert key (some row), draft.compat.untombstone key⟩
  else { draft with compat := draft.compat.insert key row }

def deleteCatalogRow (draft : CatalogDraft ρ) (key : Key) : CatalogDraft ρ :=
  ⟨if key.1.typed then draft.typed.insert key none else draft.typed, draft.compat.delete key⟩

def write (schema : Schema ρ α) (draft : CatalogDraft ρ) : Write ρ → CatalogDraft ρ
  | .upsert key row => draft.upsertCatalogRow schema key row
  | .delete key => draft.deleteCatalogRow key

/-- Merge a released draft: its typed rows take back tombstones. -/
def merge (parent child : CatalogDraft ρ) : CatalogDraft ρ where
  typed := parent.typed.extend child.typed
  compat := (child.typed.entries.foldl
    (fun compat entry => if entry.2.isSome then compat.untombstone entry.1 else compat)
    parent.compat).merge child.compat

def applyMutation (typed : Dict Key ρ) : Key × Option ρ → Dict Key ρ
  | (key, some row) => typed.insert key row
  | (key, none) => typed.erase key

/-- Apply a draft to a snapshot: here the tombstones stay. -/
def applyToSnapshot (draft : CatalogDraft ρ) (snapshot : CatalogSnapshot ρ) : CatalogSnapshot ρ where
  typed := draft.typed.entries.foldl applyMutation snapshot.typed
  compat := snapshot.compat.merge draft.compat

/-- `commit_catalog_draft`, and a step of `materialize_visible_catalog_snapshot`. -/
def publish (snapshot : CatalogSnapshot ρ) (draft : CatalogDraft ρ) : CatalogSnapshot ρ :=
  if draft.isEmpty then snapshot else draft.applyToSnapshot snapshot

end CatalogDraft

def drafts (ρ : Type) : Layering (CatalogSnapshot ρ) (CatalogDraft ρ) :=
  ⟨.empty, CatalogDraft.merge, CatalogDraft.publish⟩

/-- The shared snapshot, and the drafts of every session. -/
abbrev CatalogState (ρ : Type) := System (CatalogSnapshot ρ) (CatalogDraft ρ)

def CatalogState.initial : CatalogState ρ := ⟨.empty, fun _ => ⟨[], false⟩⟩

def catalogStep (schema : Schema ρ α) :
    CatalogState ρ → Nat × Op (Write ρ) → Option (CatalogState ρ) :=
  step (drafts ρ) fun change draft => draft.write schema change

/-! ## Reading -/

/-- `with_visible_catalog_snapshot`: the drafts of the session over the shared
    snapshot, the outermost one first. -/
def visibleSnapshot (base : CatalogSnapshot ρ) (stack : List (CatalogDraft ρ)) : CatalogSnapshot ρ :=
  stack.foldr (fun draft snapshot => draft.publish snapshot) base

def insertMatchingRow (matching : ρ → Bool) (rows : Dict RowId ρ) (id : RowId) (row : ρ) :
    Dict RowId ρ :=
  if matching row then rows.insert id row else rows

variable [DecidableEq α]

/-- Make up built-in rows, each unless its column exists already. -/
def synthesize (matching : ρ → Bool) : List α → Dict RowId ρ → List (Synthetic ρ α) → Dict RowId ρ
  | _, rows, [] => rows
  | existing, rows, row :: rest =>
    match row.column with
    | none => synthesize matching existing (insertMatchingRow matching rows row.id row.row) rest
    | some column =>
      if column ∈ existing then synthesize matching existing rows rest
      else synthesize matching (column :: existing)
        (insertMatchingRow matching rows row.id row.row) rest

def earlyRows (schema : Schema ρ α) (relation : CatalogRelation) (matching : ρ → Bool) :
    Dict RowId ρ :=
  (schema.early relation).foldl
    (fun rows entry => insertMatchingRow matching rows entry.1 entry.2) .empty

def insertTypedRows (typed : Dict Key ρ) (relation : CatalogRelation) (matching : ρ → Bool)
    (rows : Dict RowId ρ) : Dict RowId ρ :=
  typed.entries.foldl
    (fun rows entry =>
      if entry.1.1 = relation then insertMatchingRow matching rows entry.1.2 entry.2 else rows) rows

/-- The built-in rows and those of the typed map. -/
def typedRows (schema : Schema ρ α) (typed : Dict Key ρ) (relation : CatalogRelation)
    (matching : ρ → Bool) : Dict RowId ρ :=
  let rows := insertTypedRows typed relation matching (earlyRows schema relation matching)
  synthesize matching (rows.entries.filterMap fun entry => schema.attributeKey entry.2) rows
    (schema.late relation)

/-- `catalog_rows_matching_static` -/
def catalogRowsMatching (schema : Schema ρ α) (snapshot : CatalogSnapshot ρ)
    (relation : CatalogRelation) (matching : ρ → Bool) : List (RowId × ρ) :=
  (snapshot.compat.applyToRows relation
    (typedRows schema snapshot.typed relation matching)).entries.filter fun entry => matching entry.2

/-- The rows of a relation that a session reads. -/
def readRows (schema : Schema ρ α) (state : CatalogState ρ) (sid : Nat)
    (relation : CatalogRelation) (matching : ρ → Bool) : List (RowId × ρ) :=
  catalogRowsMatching schema (visibleSnapshot state.base (state.sessions sid).stack) relation matching

end FastPg.Catalog
