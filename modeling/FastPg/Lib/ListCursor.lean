import Mathlib.Data.List.Basic

/-! # Cursors over a list

A cursor that can be moved in both directions over the rows of a list. It stands
on a row, at an end, or, before its first move, at both ends at once. Rows that
are not wanted are passed over.
-/

namespace FastPg

open List Option

/-- The place of a cursor: the index of the next row forwards, and how many rows
    there are backwards. -/
structure ListCursor where
  ahead : Nat
  behind : Nat
  deriving DecidableEq, Repr

namespace ListCursor

/-- On the row with this index. -/
def on (index : Nat) : ListCursor := ⟨index + 1, index⟩

variable {α : Type*}

/-- Before the first move. -/
def start (rows : List α) : ListCursor := ⟨0, rows.length⟩

/-- Behind the last row. -/
def finish (rows : List α) : ListCursor := ⟨rows.length, rows.length⟩

/-- Before the first row. -/
def origin : ListCursor := ⟨0, 0⟩

/-- Move to the nearest wanted row, or to the end if there is none. -/
def next (rows : List α) (wanted : α → Bool) (forward : Bool) (cursor : ListCursor) :
    ListCursor × Option α :=
  if forward then
    match (rows.drop cursor.ahead).findIdx? wanted with
    | some skipped => (on (cursor.ahead + skipped), rows[cursor.ahead + skipped]?)
    | none => (finish rows, none)
  else
    match (rows.take cursor.behind).reverse.findIdx? wanted with
    | some skipped => (on (cursor.behind - 1 - skipped), rows[cursor.behind - 1 - skipped]?)
    | none => (origin, none)

/-- One answer for every direction. -/
def fetches (rows : List α) (wanted : α → Bool) : ListCursor → List Bool → List (Option α)
  | _, [] => []
  | cursor, forward :: rest =>
    let (moved, row) := next rows wanted forward cursor
    row :: fetches rows wanted moved rest

variable {rows : List α} {wanted : α → Bool} {cursor : ListCursor} {row : α}

/-! ## One row at a time -/

variable {index : Nat}

theorem next_forward_end (past : rows.length ≤ cursor.ahead) :
    next rows wanted true cursor = (finish rows, none) := by
  simp [next, drop_eq_nil_of_le past]

theorem next_forward_found (here : rows[cursor.ahead]? = some row) (good : wanted row = true) :
    next rows wanted true cursor = (on cursor.ahead, some row) := by
  obtain ⟨bound, rfl⟩ := List.getElem?_eq_some_iff.mp here
  simp only [next, if_true]
  rw [List.drop_eq_getElem_cons bound, List.findIdx?_cons, if_pos good]
  exact congrArg (Prod.mk _) here

theorem next_forward_skip (here : rows[cursor.ahead]? = some row) (bad : wanted row = false) :
    next rows wanted true cursor = next rows wanted true (on cursor.ahead) := by
  obtain ⟨bound, rfl⟩ := List.getElem?_eq_some_iff.mp here
  simp only [next, if_true, on]
  rw [List.drop_eq_getElem_cons bound, List.findIdx?_cons, bad]
  simp only [Bool.false_eq_true, if_false]
  cases (rows.drop (cursor.ahead + 1)).findIdx? wanted with
  | none => rfl
  | some skipped =>
    simp only [Option.map_some]
    rw [show cursor.ahead + (skipped + 1) = cursor.ahead + 1 + skipped by omega]

theorem next_backward_end (none_ : cursor.behind = 0) :
    next rows wanted false cursor = (origin, none) := by
  simp [next, none_]

/-- Backwards it does not matter what is ahead. -/
theorem next_backward_congr {other : ListCursor} (same : cursor.behind = other.behind) :
    next rows wanted false cursor = next rows wanted false other := by
  simp only [next, same, Bool.false_eq_true, if_false]

theorem take_succ_reverse (here : rows[index]? = some row) :
    (rows.take (index + 1)).reverse = row :: (rows.take index).reverse := by
  obtain ⟨bound, rfl⟩ := List.getElem?_eq_some_iff.mp here
  rw [List.take_succ_eq_append_getElem bound, List.reverse_append, List.reverse_singleton,
    List.singleton_append]

theorem next_backward_found (place : cursor.behind = index + 1) (here : rows[index]? = some row)
    (good : wanted row = true) :
    next rows wanted false cursor = (on index, some row) := by
  simp [next, place, take_succ_reverse here, findIdx?_cons, good, here]

theorem next_backward_skip (place : cursor.behind = index + 1) (here : rows[index]? = some row)
    (bad : wanted row = false) :
    next rows wanted false cursor = next rows wanted false (on index) := by
  simp only [next, place, take_succ_reverse here, findIdx?_cons, bad, on, Bool.false_eq_true,
    if_false]
  cases (rows.take index).reverse.findIdx? wanted with
  | none => rfl
  | some skipped =>
    simp only [map_some]
    rw [show index + 1 - 1 - (skipped + 1) = index - 1 - skipped by omega]

end ListCursor

end FastPg
