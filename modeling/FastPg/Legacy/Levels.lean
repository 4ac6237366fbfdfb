import FastPg.Lib.Dict
import Mathlib.Logic.Function.Basic
import Mathlib.Tactic.ByContra

/-! # Levels over the rows of a relation

The first storage engine keeps the committed rows of a relation under their ids,
and the rows that a session wrote and the ids it deleted in levels, one for the
transaction and one for each savepoint. Every level lies over those outside it:
where it has a row of its own for one below, it has deleted the other one, and the
next row id is a new one.
-/

namespace FastPg.Legacy

open List

inductive Datum where
  | null
  | byValue (value : Nat)
  | byRef (bytes : List UInt8)
  deriving DecidableEq

structure Row where
  rowId : Nat
  cells : List Datum
  deriving DecidableEq

/-- What a transaction overlay holds for the relation. -/
structure Level where
  rows : List Row := []
  deletedRowIds : List Nat := []
  savedNextRowId : Option Nat := none

def removeRowIds (rows : List Row) (rowIds : List Nat) : List Row :=
  rows.filter (·.rowId ∉ rowIds)

/-- `merge_overlay_into_overlay`. -/
def Level.merge (parent child : Level) : Level where
  rows := removeRowIds parent.rows child.deletedRowIds ++ child.rows
  deletedRowIds := parent.deletedRowIds ++ child.deletedRowIds
  savedNextRowId := parent.savedNextRowId.or child.savedNextRowId

structure RelationRows where
  committedRowIndex : Dict Nat Row := .empty
  nextRowId : Nat := 1

/-- Deleted rows go, and own ones take their places. -/
def RelationRows.commitOverlay (relation : RelationRows) (level : Level) : RelationRows :=
  { relation with
    committedRowIndex := level.rows.foldl (fun index row => index.insert row.rowId row)
      (level.deletedRowIds.foldl .erase relation.committedRowIndex) }

/-! ## What levels show -/

abbrev Contents := Nat → Option Row

def shown (rows : List Row) : Contents := fun rowId => rows.find? (·.rowId = rowId)

/-- What a level shows of what is below it. -/
def Level.over (level : Level) (outer : Contents) : Contents := fun rowId =>
  (shown level.rows rowId).or (if rowId ∈ level.deletedRowIds then none else outer rowId)

/-- Rows under their ids, with those in use below the next one. -/
structure Bounded (next : Nat) (contents : Contents) : Prop where
  positive : 0 < next
  ids : ∀ rowId row, contents rowId = some row → row.rowId = rowId ∧ 0 < rowId ∧ rowId < next

structure Level.Over (level : Level) (outer : Contents) (next : Nat) : Prop where
  distinct : (level.rows.map Row.rowId).Nodup
  deleted : ∀ rowId, (shown level.rows rowId).isSome → (outer rowId).isSome →
    rowId ∈ level.deletedRowIds
  bounded : Bounded next (level.over outer)

section Shown

variable {rows news : List Row} {rowId : Nat} {keep : Nat → Bool}

theorem shown_append : shown (rows ++ news) rowId = (shown rows rowId).or (shown news rowId) :=
  find?_append

theorem isSome_shown : (shown rows rowId).isSome ↔ rowId ∈ rows.map Row.rowId := by
  simp [shown]

theorem shown_filter :
    shown (rows.filter (keep ·.rowId)) rowId = if keep rowId then shown rows rowId else none := by
  simp only [shown, find?_filter]
  split
  next kept => grind
  next left => grind

theorem shown_removeRowIds {rowIds : List Nat} :
    shown (removeRowIds rows rowIds) rowId = if rowId ∈ rowIds then none else shown rows rowId := by
  rw [removeRowIds, @shown_filter _ _ fun rowId => decide (rowId ∉ rowIds)]
  by_cases gone : rowId ∈ rowIds <;> simp [gone]

theorem shown_singleton (row : Row) :
    shown [row] rowId = if rowId = row.rowId then some row else none := by
  by_cases here : rowId = row.rowId <;> simp [shown, here, Ne.symm]

end Shown

theorem Bounded.mono {next next' : Nat} {contents : Contents} (bounded : Bounded next contents)
    (later : next ≤ next') : Bounded next' contents :=
  ⟨Nat.lt_of_lt_of_le bounded.positive later, fun rowId row there =>
    have ids := bounded.ids rowId row there
    ⟨ids.1, ids.2.1, Nat.lt_of_lt_of_le ids.2.2 later⟩⟩

namespace Level.Over

variable {level level' child parent : Level} {outer : Contents} {next next' : Nat}

theorem mono (lies : level.Over outer next) (later : next ≤ next') : level.Over outer next' :=
  ⟨lies.distinct, lies.deleted, lies.bounded.mono later⟩

/-- Rows with new ids are added. -/
theorem insert (lies : level.Over outer next) {news : List Row}
    (rows : level'.rows = level.rows ++ news) (gone : level'.deletedRowIds = level.deletedRowIds)
    (ids : news.map Row.rowId = range' next news.length) :
    level'.Over outer (next + news.length) ∧
      level'.over outer = fun rowId => (level.over outer rowId).or (shown news rowId) := by
  have fresh : ∀ rowId, (shown news rowId).isSome → level.over outer rowId = none ∧
      next ≤ rowId ∧ rowId < next + news.length := by
    intro rowId there
    have range := mem_range'_1.mp (ids ▸ isSome_shown.mp there)
    refine ⟨Option.eq_none_iff_forall_ne_some.mpr fun row seen => ?_, range⟩
    have := (lies.bounded.ids rowId row seen).2.2
    omega
  have shows : ∀ rowId, level'.over outer rowId =
      (level.over outer rowId).or (shown news rowId) := by
    intro rowId
    simp only [Level.over, rows, gone, shown_append]
    by_cases new : (shown news rowId).isSome
    · obtain ⟨own, below⟩ := Option.or_eq_none_iff.mp (fresh rowId new).1
      simp only [own, below, Option.none_or, Option.or_none]
    · simp [Option.not_isSome_iff_eq_none.mp new]
  have positive := lies.bounded.positive
  refine ⟨⟨?_, fun rowId own below => ?_, by omega, fun rowId row there => ?_⟩, funext shows⟩
  · rw [rows, map_append, ids]
    refine nodup_append.mpr ⟨lies.distinct, nodup_range', fun rowId own other new => ?_⟩
    obtain ⟨row, there⟩ := Option.isSome_iff_exists.mp (isSome_shown.mpr own)
    have := lies.bounded.ids rowId row (by simp [Level.over, there])
    have := mem_range'_1.mp new
    omega
  · rw [rows, shown_append, Option.isSome_or, Bool.or_eq_true] at own
    rw [gone]
    refine own.elim (lies.deleted rowId · below) fun new => by_contra fun kept => ?_
    have hidden := (Option.or_eq_none_iff.mp (fresh rowId new).1).2
    simp [if_neg kept ▸ hidden] at below
  · rw [shows] at there
    rcases Option.or_eq_some_iff.mp there with old | ⟨-, new⟩
    · exact (lies.mono (Nat.le_add_right ..)).bounded.ids rowId row old
    · have := (fresh rowId (by simp [new])).2
      exact ⟨by simpa using find?_some new, by omega⟩

/-- A version goes, and another one may come in its place. -/
theorem strike (lies : level.Over outer next) {rowId : Nat} {new : Option Row}
    (seen : (level.over outer rowId).isSome) (same : ∀ row ∈ new, row.rowId = rowId)
    (rows : level'.rows = removeRowIds level.rows [rowId] ++ new.toList)
    (gone : level'.deletedRowIds = rowId :: level.deletedRowIds) : level'.Over outer next ∧
      level'.over outer = Function.update (level.over outer) rowId new := by
  have own : ∀ other, shown level'.rows other =
      if other = rowId then new else shown level.rows other := by
    intro other
    rw [rows, shown_append, shown_removeRowIds]
    cases new with
    | none => by_cases here : other = rowId <;> simp [here, shown]
    | some row => by_cases here : other = rowId <;> simp [here, same row rfl, shown_singleton]
  have shows : level'.over outer = Function.update (level.over outer) rowId new := by
    funext other
    simp only [Level.over, own, gone, mem_cons, Function.update_apply]
    by_cases here : other = rowId <;> simp [here]
  refine ⟨⟨?_, fun other there below => ?_, lies.bounded.positive, fun other row there => ?_⟩,
    shows⟩
  · rw [rows, map_append]
    refine nodup_append.mpr ⟨lies.distinct.sublist (filter_sublist.map _),
      by cases new <;> simp, ?_⟩
    unfold removeRowIds
    grind
  · rw [gone]
    by_cases here : other = rowId
    · exact here ▸ mem_cons_self
    · rw [own, if_neg here] at there
      exact .tail _ (lies.deleted other there below)
  · rw [shows] at there
    by_cases here : other = rowId
    · subst here
      obtain ⟨old, there'⟩ := Option.isSome_iff_exists.mp seen
      rw [Function.update_self] at there
      exact ⟨same row there, (lies.bounded.ids _ old there').2⟩
    · rw [Function.update_of_ne here] at there
      exact lies.bounded.ids other row there

/-- The level is given up for the one outside it. -/
theorem merge (inner : child.Over (parent.over outer) next) (lies : parent.Over outer next') :
    (parent.merge child).Over outer next ∧
      (parent.merge child).over outer = child.over (parent.over outer) := by
  have own : ∀ rowId, shown (parent.merge child).rows rowId =
      (if rowId ∈ child.deletedRowIds then none else shown parent.rows rowId).or
        (shown child.rows rowId) := fun rowId => by
    rw [Level.merge, shown_append, shown_removeRowIds]
  have deleted : (parent.merge child).deletedRowIds =
      parent.deletedRowIds ++ child.deletedRowIds := rfl
  -- A row of the level that is not deleted in it has none below it to hide it.
  have hidden : ∀ rowId, rowId ∉ child.deletedRowIds → (shown child.rows rowId).isSome →
      parent.over outer rowId = none := fun rowId kept there =>
    Option.not_isSome_iff_eq_none.mp fun below => kept (inner.deleted rowId there below)
  have shows : (parent.merge child).over outer = child.over (parent.over outer) := by
    funext rowId
    simp only [Level.over, own, deleted, mem_append]
    by_cases gone : rowId ∈ child.deletedRowIds
    · simp [gone]
    · cases here : shown child.rows rowId with
      | none => simp [gone]
      | some values =>
        have below := Option.or_eq_none_iff.mp (hidden rowId gone (by simp [here]))
        simp [gone, below]
  refine ⟨⟨?_, fun rowId there below => ?_, shows ▸ inner.bounded⟩, shows⟩
  · rw [Level.merge, map_append]
    refine nodup_append.mpr ⟨lies.distinct.sublist (filter_sublist.map _), inner.distinct, ?_⟩
    intro rowId outside rowId' inside same
    obtain ⟨row, kept, rfl⟩ := mem_map.mp outside
    obtain ⟨listed, kept⟩ := mem_filter.mp kept
    have below := hidden row.rowId (by simpa using kept) (isSome_shown.mpr (same ▸ inside))
    have := isSome_shown.mpr (mem_map_of_mem listed)
    simp_all [Level.over]
  · rw [own] at there
    rw [deleted, mem_append]
    by_contra! kept
    rw [if_neg kept.2, Option.isSome_or, Bool.or_eq_true] at there
    rcases there with outside | inside
    · exact kept.1 (lies.deleted rowId outside below)
    · have none := (Option.or_eq_none_iff.mp (hidden rowId kept.2 inside)).2
      simp [if_neg kept.1 ▸ none] at below

/-- A level with rows of its own only. -/
theorem replace (distinct : (level.rows.map Row.rowId).Nodup)
    (covers : ∀ rowId, (outer rowId).isSome → rowId ∈ level.deletedRowIds)
    (bounded : Bounded next (shown level.rows)) :
    level.Over outer next ∧ level.over outer = shown level.rows := by
  have shows : level.over outer = shown level.rows := by
    funext rowId
    unfold Level.over
    cases here : outer rowId with
    | none => simp
    | some values => simp [covers rowId (by simp [here])]
  exact ⟨⟨distinct, fun rowId _ => covers rowId, shows ▸ bounded⟩, shows⟩

end Level.Over

/-- The rows that a level shows are committed. -/
theorem RelationRows.commitOverlay_get {relation : RelationRows} {level : Level}
    (distinct : (level.rows.map Row.rowId).Nodup) :
    (relation.commitOverlay level).committedRowIndex.get =
      level.over relation.committedRowIndex.get := by
  have erased : ∀ (index : Dict Nat Row) rowId, (level.deletedRowIds.foldl .erase index).get rowId =
      if rowId ∈ level.deletedRowIds then none else index.get rowId := by
    intro index rowId
    induction level.deletedRowIds generalizing index with
    | nil => rfl
    | cons first rest ih => grind [Dict.get_erase]
  have inserted : ∀ (index : Dict Nat Row) rowId,
      (level.rows.foldl (fun index row => index.insert row.rowId row) index).get rowId =
        (shown level.rows rowId).or (index.get rowId) := by
    intro index rowId
    generalize level.rows = rows at distinct
    induction rows generalizing index with
    | nil => rfl
    | cons row rest ih =>
      obtain ⟨new, distinct⟩ := nodup_cons.mp distinct
      have hidden : shown rest row.rowId = none :=
        Option.not_isSome_iff_eq_none.mp (mt isSome_shown.mp new)
      rw [foldl_cons, ih _ distinct, Dict.get_insert, ← singleton_append, shown_append,
        shown_singleton]
      grind
  funext rowId
  rw [commitOverlay, inserted, erased, Level.over]

end FastPg.Legacy
