import FastPg.Lib.Compare
import FastPg.Lib.ListCursor

/-! # Index scans

An index scan looks its matches up in one of two ways. A general scan collects
all of them at the first fetch, sorts them and moves an index over the list; an
equality probe of a unique index looks its key up when it is fetched, one key,
or one key of an array after the other. Both share the fields that mark and
restore copy. Rows are named by their row ids, which are numbers.
-/

namespace FastPg.Index

/-! ## The order of an index -/

def int32Min : Int := -2147483648

/-- Negation of an `int32`, which leaves the least one as it is. -/
def negate32 (n : Int) : Int := if n = int32Min then int32Min else -n

/-- The order procedure of a key column's type. -/
structure OrderProc (V : Type) where
  compare : V → V → Int
  lawful : LawfulCompare compare
  /-- The answer can be negated. -/
  negatable : ∀ a b, compare a b ≠ int32Min

structure KeyColumn (V : Type) where
  order : OrderProc V
  nullsFirst : Bool
  desc : Bool

variable {V : Type}

/-- How one column compares two keys. -/
def KeyColumn.cmp (column : KeyColumn V) : Option V → Option V → Int
  | none, none => 0
  | none, some _ => if column.nullsFirst then -1 else 1
  | some _, none => if column.nullsFirst then 1 else -1
  | some left, some right =>
    let cmp := column.order.compare left right
    if cmp ≠ 0 then if column.desc then negate32 cmp else cmp else 0

/-- The key of a row: a value or null for each column. -/
abbrev Key (V : Type) := Nat → Option V

/-- The columns from an index on, up to the first that differs. -/
def keyCmp (left right : Key V) : Nat → List (KeyColumn V) → Int
  | _, [] => 0
  | index, column :: rest =>
    let cmp := column.cmp (left index) (right index)
    if cmp ≠ 0 then cmp else keyCmp left right (index + 1) rest

structure IndexMatch (V : Type) where
  rowId : Nat
  values : Key V

/-- `fastpg_mem_index_match_cmp`. -/
def matchCmp (columns : List (KeyColumn V)) (left right : IndexMatch V) : Int :=
  let cmp := keyCmp left.values right.values 0 columns
  if cmp ≠ 0 then cmp
  else if left.rowId < right.rowId then -1
  else if right.rowId < left.rowId then 1
  else 0

/-- `fastpg_mem_index_sort_matches`. -/
def sortMatches (columns : List (KeyColumn V)) (rows : List (IndexMatch V)) : List (IndexMatch V) :=
  if rows.length ≤ 1 then rows
  else dropRepeats (fun last match_ => match_.rowId = last.rowId)
    (rows.mergeSort fun left right => matchCmp columns left right ≤ 0)

/-! ## Scans -/

/-- What the lookups of a scan find. -/
inductive Lookup where
  /-- The rows of the table that match, in the order of the table. -/
  | general (found : List Nat)
  | probe (found : Option Nat)
  /-- One probe for each element of an array. -/
  | arrayProbe (found : List (Option Nat))
  deriving DecidableEq, Repr

/-- An index scan, with the keys of the rows as they are while it runs. -/
structure IndexScan (V : Type) where
  columns : List (KeyColumn V)
  key : Nat → Key V
  lookup : Lookup

inductive ScanDirection where
  | backward
  | noMovement
  | forward
  deriving DecidableEq, Repr

/-- The part of `FastPgMemIndexScan` that mark and restore copy. -/
structure Place where
  matchedIndex : Nat := 0
  done : Bool := false
  lastDirection : ScanDirection := .noMovement
  deriving DecidableEq, Repr

structure ScanState where
  /-- The row ids of `matched_rows`, once they are collected. -/
  matched : Option (List Nat) := none
  place : Place := {}
  mark : Place := {}
  arrayIndex : Nat := 0
  deriving DecidableEq, Repr

namespace IndexScan

def isGeneral (scan : IndexScan V) : Bool :=
  match scan.lookup with
  | .general _ => true
  | _ => false

/-- The matches of a general scan as it collects them. -/
def collected (scan : IndexScan V) (found : List Nat) : List Nat :=
  (sortMatches scan.columns (found.map fun row => ⟨row, scan.key row⟩)).map IndexMatch.rowId

/-- `fastpg_mem_index_get_tuple_full_scan` once the matches are collected. -/
def getTupleFullScan (rows : List Nat) (direction : Bool) (place : Place) : Place × Option Nat :=
  if direction then
    let index :=
      if place.lastDirection = .backward ∧ place.matchedIndex < rows.length then place.matchedIndex + 1
      else place.matchedIndex
    if rows.length ≤ index then (⟨index, true, .noMovement⟩, none)
    else (⟨index + 1, false, .forward⟩, rows[index]?)
  else
    let index :=
      if place.lastDirection = .forward ∧ 0 < place.matchedIndex then place.matchedIndex - 1
      else place.matchedIndex
    let index :=
      if index = 0 ∧ place.lastDirection = .noMovement ∧ ¬place.done then rows.length else index
    if index = 0 then (⟨index, true, .noMovement⟩, none)
    else (⟨index - 1, index - 1 = 0, .backward⟩, rows[index - 1]?)

/-- The loop over the elements of an array, from an element on. -/
def nextElement (index : Nat) : List (Option Nat) → Nat × Option Nat
  | [] => (index, none)
  | some row :: _ => (index + 1, some row)
  | none :: rest => nextElement (index + 1) rest

/-- `fastpg_mem_index_get_tuple`; `true` is forwards. -/
def getTuple (scan : IndexScan V) (state : ScanState) (direction : Bool) :
    Except String (ScanState × Option Nat) :=
  match scan.lookup with
  | .general found =>
    let rows := state.matched.getD (scan.collected found)
    let place :=
      if state.matched.isSome then state.place
      else { state.place with matchedIndex := 0, done := false }
    let fetched := getTupleFullScan rows direction place
    .ok ({ state with matched := some rows, place := fetched.1 }, fetched.2)
  | .probe found =>
    if state.place.done then .ok (state, none)
    else .ok ({ state with place.done := true }, found)
  | .arrayProbe found =>
    if !direction then
      .error "fastpg_mem primary-key index does not support backward scalar-array scans"
    else if state.place.done then .ok (state, none)
    else
      let element := nextElement state.arrayIndex (found.drop state.arrayIndex)
      let place := if element.2.isNone then { state.place with done := true } else state.place
      .ok ({ state with place, arrayIndex := element.1 }, element.2)

end IndexScan

inductive ScanCall where
  /-- A fetch, forwards or backwards. -/
  | fetch (direction : Bool)
  | markPos
  | restrPos
  deriving DecidableEq, Repr

namespace IndexScan

/-- The answers to the fetches of a sequence of calls. -/
def run (scan : IndexScan V) (state : ScanState) : List ScanCall → Except String (List (Option Nat))
  | [] => .ok []
  | .fetch direction :: rest => do
      let (state, row) ← scan.getTuple state direction
      let rows ← scan.run state rest
      .ok (row :: rows)
  | .markPos :: rest => scan.run { state with mark := state.place } rest
  | .restrPos :: rest => scan.run { state with place := state.mark } rest

end IndexScan

/-! ## What a scan should be -/

/-- Every row that is there. -/
def anyRow (_ : Nat) : Bool := true

/-- The answers of a cursor over a list that can be marked. -/
def cursorAnswers (rows : List Nat) (cursor mark : ListCursor) :
    List ScanCall → List (Option Nat)
  | [] => []
  | .fetch direction :: rest =>
    let (moved, row) := cursor.next rows anyRow direction
    row :: cursorAnswers rows moved mark rest
  | .markPos :: rest => cursorAnswers rows cursor cursor rest
  | .restrPos :: rest => cursorAnswers rows mark mark rest

namespace IndexScan

def found (scan : IndexScan V) : List Nat :=
  match scan.lookup with
  | .general found => found
  | .probe found => found.toList
  | .arrayProbe found => found.filterMap id

/-- The list of a scan's matches: each once, in the order of the index. -/
structure IsMatches (scan : IndexScan V) (rows : List Nat) : Prop where
  nodup : rows.Nodup
  mem_iff : ∀ row, row ∈ rows ↔ row ∈ scan.found
  ordered : rows.Pairwise fun left right => keyCmp (scan.key left) (scan.key right) 0 scan.columns ≤ 0

/-- The scan is a cursor over its matches, whatever calls it accepts. -/
def IsCursor (scan : IndexScan V) : Prop :=
  ∃ rows, scan.IsMatches rows ∧ ∀ calls answers, scan.run {} calls = .ok answers →
    answers = cursorAnswers rows (.start rows) (.start rows) calls

end IndexScan

end FastPg.Index
