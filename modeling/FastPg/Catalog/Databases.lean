import Mathlib
import FastPg.Wire.Split

/-! # Databases

A database is made when it is first connected to. It is looked up by its name, also
by its name in lower case, and otherwise gets a hash of the name as its oid. Names
that differ only in case, or have the same hash, come to share one row; it is shown
that nothing else goes wrong.
-/

namespace FastPg.Catalog

open List

open Wire (Text isWhitespace)

structure DatabaseRow where
  oid : UInt32
  datname : Text
  deriving DecidableEq, Repr

def trim (name : Text) : Text := (name.dropWhile isWhitespace).rdropWhile isWhitespace

def normalizeIdentifier (value : Text) : Text := (trim value).map Char.toLower

def canonicalDatabaseName (name : Text) : Text :=
  if trim name = [] then "postgres".toList else trim name

def hashByte (hash : UInt32) (byte : UInt8) : UInt32 := (hash ^^^ byte.toUInt32) * 0x01000193

def syntheticDatabaseOid (name : Text) : UInt32 :=
  if name = "template1".toList then 1
  else if name = "template0".toList then 4
  else if name = "postgres".toList then 5
  else 0xE1000000 |||
    ((name.flatMap String.utf8EncodeChar).foldl hashByte 0x811C9DC5 &&& 0x00FFFFFF)

def catalogRowIdentifierMatches (name : Text) (row : DatabaseRow) : Bool :=
  row.datname = name || normalizeIdentifier row.datname = name

def databaseRowByName (rows : List DatabaseRow) (name : Text) : Option DatabaseRow :=
  rows.find? (catalogRowIdentifierMatches name)

def databaseRowByOid (rows : List DatabaseRow) (oid : UInt32) : Option DatabaseRow :=
  rows.find? fun row => row.oid = oid

/-- `ensure_database`, with the rows of `pg_database`. Rows are read in the order of
    their row ids, which are their oids. -/
def ensureDatabase (rows : List DatabaseRow) (name : Text) : UInt32 × List DatabaseRow :=
  match databaseRowByName rows (canonicalDatabaseName name) with
  | some row => (row.oid, rows)
  | none =>
    let oid := syntheticDatabaseOid (canonicalDatabaseName name)
    match databaseRowByOid rows oid with
    | some _ => (oid, rows)
    | none =>
      (oid, rows.orderedInsert (fun first second => first.oid ≤ second.oid)
        ⟨oid, canonicalDatabaseName name⟩)

/-- The name is not blank, and the first row that matches it carries it; or no row
    matches it and its synthetic oid is free. -/
def IsPlain (rows : List DatabaseRow) (name : Text) : Prop :=
  trim name ≠ [] ∧ match databaseRowByName rows (trim name) with
    | some row => row.datname = trim name
    | none => databaseRowByOid rows (syntheticDatabaseOid (trim name)) = none

structure WellFormedRows (rows : List DatabaseRow) : Prop where
  oids : (rows.map DatabaseRow.oid).Nodup
  names : (rows.map DatabaseRow.datname).Nodup
  named : ∀ row ∈ rows, row.datname ≠ []

variable {rows : List DatabaseRow}

theorem canonicalDatabaseName_ne_nil (name : Text) : canonicalDatabaseName name ≠ [] := by
  rw [canonicalDatabaseName]
  split
  · decide
  · assumption

theorem WellFormedRows.insert {row : DatabaseRow} (wf : WellFormedRows rows)
    (unnamed : databaseRowByName rows row.datname = none)
    (free : databaseRowByOid rows row.oid = none) (named : row.datname ≠ []) :
    WellFormedRows (rows.orderedInsert (fun first second => first.oid ≤ second.oid) row) := by
  have perm := perm_orderedInsert (fun first second : DatabaseRow => first.oid ≤ second.oid) row rows
  simp only [databaseRowByName, find?_eq_none, catalogRowIdentifierMatches, Bool.or_eq_true,
    decide_eq_true_eq, not_or] at unnamed
  simp only [databaseRowByOid, find?_eq_none, decide_eq_true_eq] at free
  constructor
  · refine (perm.map _).nodup_iff.mpr (nodup_cons.mpr ⟨?_, wf.oids⟩)
    simpa using free
  · refine (perm.map _).nodup_iff.mpr (nodup_cons.mpr ⟨?_, wf.names⟩)
    simpa using fun other mem => (unnamed other mem).1
  · intro other mem
    rcases mem_cons.mp (perm.mem_iff.mp mem) with rfl | mem
    · exact named
    · exact wf.named other mem

/-- What one call does: it keeps the rows well formed, adds at most one, answers with
    the oid of a row, and that row carries the name just in the plain case. -/
theorem ensureDatabase_spec (wf : WellFormedRows rows) (name : Text) :
    WellFormedRows (ensureDatabase rows name).2 ∧ rows ⊆ (ensureDatabase rows name).2 ∧
      ∃ row ∈ (ensureDatabase rows name).2, row.oid = (ensureDatabase rows name).1 ∧
        (row.datname = trim name ↔ IsPlain rows name) := by
  have canonical : trim name ≠ [] → canonicalDatabaseName name = trim name := fun h => if_neg h
  fun_cases ensureDatabase rows name with
  | case1 row found =>
    refine ⟨wf, fun _ => id, row, mem_of_find?_eq_some found, rfl, ?_, ?_⟩
    · intro carries
      have filled : trim name ≠ [] := carries ▸ wf.named row (mem_of_find?_eq_some found)
      rw [canonical filled] at found
      exact ⟨filled, by simp only [found, carries]⟩
    · rintro ⟨filled, plain⟩
      rw [canonical filled] at found
      simpa only [found] using plain
  | case2 missing oid row found =>
    have mem := mem_of_find?_eq_some found
    have same : row.oid = oid := by simpa using find?_some found
    refine ⟨wf, fun _ => id, row, mem, same, ?_, ?_⟩
    · intro carries
      have filled : trim name ≠ [] := carries ▸ wf.named row mem
      have matched := find?_eq_none.mp missing row mem
      simp [catalogRowIdentifierMatches, canonical filled, carries] at matched
    · rintro ⟨filled, plain⟩
      simp only [oid, canonical filled] at missing found
      simp only [missing, found] at plain
      cases plain
  | case3 missing oid free =>
    refine ⟨wf.insert missing free (canonicalDatabaseName_ne_nil name), ?_,
      ⟨oid, canonicalDatabaseName name⟩, ?_, rfl, ?_, ?_⟩
    · exact fun row mem => (perm_orderedInsert _ _ _).mem_iff.mpr (.tail _ mem)
    · exact (perm_orderedInsert _ _ _).mem_iff.mpr (.head _)
    · intro carries
      have filled : trim name ≠ [] := carries ▸ canonicalDatabaseName_ne_nil name
      simp only [oid, canonical filled] at missing free
      exact ⟨filled, by simp only [missing, free]⟩
    · exact fun plain => canonical plain.1

/-! ## Runs -/

/-- The rows of `pg_database`, and which names were answered with which oids. -/
structure Databases where
  rows : List DatabaseRow
  answers : List (Text × UInt32)

/-- The only built-in database is `template1`. -/
def Databases.initial : Databases := ⟨[⟨1, "template1".toList⟩], []⟩

def Databases.ensure (databases : Databases) (name : Text) : Databases :=
  ⟨(ensureDatabase databases.rows name).2,
    (name, (ensureDatabase databases.rows name).1) :: databases.answers⟩

def Databases.PlainRun : Databases → List Text → Prop
  | _, [] => True
  | databases, name :: names =>
    IsPlain databases.rows name ∧ (databases.ensure name).PlainRun names

/-- Every answer is the oid of a row with the given name. -/
def Databases.Carried (databases : Databases) : Prop :=
  ∀ answer ∈ databases.answers, ⟨answer.2, trim answer.1⟩ ∈ databases.rows

/-- Names get one oid exactly if they are the same but for blanks around them. -/
def Databases.Identified (databases : Databases) : Prop :=
  ∀ first ∈ databases.answers, ∀ second ∈ databases.answers,
    trim first.1 = trim second.1 ↔ first.2 = second.2

instance (databases : Databases) : Decidable databases.Identified :=
  inferInstanceAs (Decidable (∀ first ∈ databases.answers, ∀ second ∈ databases.answers,
    trim first.1 = trim second.1 ↔ first.2 = second.2))

structure Databases.WellFormed (databases : Databases) : Prop where
  rows : WellFormedRows databases.rows
  answered : ∀ answer ∈ databases.answers, ∃ row ∈ databases.rows, row.oid = answer.2

variable {databases : Databases}

theorem Databases.WellFormed.ensure (wf : databases.WellFormed) (name : Text) :
    (databases.ensure name).WellFormed ∧
      ((databases.ensure name).Carried ↔ databases.Carried ∧ IsPlain databases.rows name) := by
  obtain ⟨rows, grows, row, mem, same, plain⟩ := ensureDatabase_spec wf.rows name
  refine ⟨⟨rows, forall_mem_cons.mpr ⟨⟨row, mem, same⟩, fun answer given => ?_⟩⟩, ?_⟩
  · obtain ⟨known, member, oid⟩ := wf.answered answer given
    exact ⟨known, grows member, oid⟩
  · have now : ⟨(ensureDatabase databases.rows name).1, trim name⟩ ∈ (databases.ensure name).rows ↔
        IsPlain databases.rows name := by
      rw [← plain]
      constructor
      · exact fun carried => congrArg DatabaseRow.datname (inj_on_of_nodup_map rows.oids mem carried same)
      · intro carries
        exact same ▸ carries ▸ mem
    -- a row that some answer names is not replaced, so earlier answers stay right or wrong
    have before : ∀ answer ∈ databases.answers,
        (⟨answer.2, trim answer.1⟩ ∈ (databases.ensure name).rows ↔
          ⟨answer.2, trim answer.1⟩ ∈ databases.rows) := by
      intro answer given
      obtain ⟨known, member, oid⟩ := wf.answered answer given
      refine ⟨fun carried => ?_, fun carried => grows carried⟩
      exact inj_on_of_nodup_map rows.oids (grows member) carried oid ▸ member
    rw [Carried, Databases.ensure, forall_mem_cons, and_comm]
    exact and_congr (forall₂_congr before) now

theorem Databases.WellFormed.run (wf : databases.WellFormed) (names : List Text) :
    (names.foldl Databases.ensure databases).WellFormed ∧
      ((names.foldl Databases.ensure databases).Carried ↔
        databases.Carried ∧ databases.PlainRun names) := by
  induction names generalizing databases with
  | nil => exact ⟨wf, (and_iff_left trivial).symm⟩
  | cons name names ih =>
    obtain ⟨wf', one⟩ := wf.ensure name
    obtain ⟨final, rest⟩ := ih wf'
    exact ⟨final, by rw [foldl_cons, rest, one, PlainRun, and_assoc]⟩

theorem Databases.Carried.identified (carried : databases.Carried) (wf : databases.WellFormed) :
    databases.Identified := by
  intro first given second also
  constructor
  · exact fun same => congrArg DatabaseRow.oid
      (inj_on_of_nodup_map wf.rows.names (carried first given) (carried second also) same)
  · exact fun same => congrArg DatabaseRow.datname
      (inj_on_of_nodup_map wf.rows.oids (carried first given) (carried second also) same)

theorem Databases.initial_wellFormed : Databases.initial.WellFormed := by
  refine ⟨⟨nodup_singleton _, nodup_singleton _, ?_⟩, fun _ => nofun⟩
  intro row mem
  rw [mem_singleton.mp mem]
  decide

/-- Databases have distinct identities exactly in the runs of plain calls. -/
theorem Databases.identities_iff (names : List Text) :
    (names.foldl ensure initial).Carried ∧ (names.foldl ensure initial).Identified ↔
      initial.PlainRun names := by
  obtain ⟨wf, carried⟩ := initial_wellFormed.run names
  rw [and_iff_left_of_imp fun h => h.identified wf, carried]
  exact and_iff_right fun _ => nofun

/-- `Foo` and `foo` share a row, and so do two names with the same hash. -/
theorem Databases.names_share_oid :
    ¬ (["Foo".toList, "foo".toList].foldl ensure initial).Identified ∧
      ¬ (["bqyz".toList, "jkbe".toList].foldl ensure initial).Identified := by
  constructor <;> decide

end FastPg.Catalog
