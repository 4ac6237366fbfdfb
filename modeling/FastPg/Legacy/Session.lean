import FastPg.Legacy.Levels

/-! # Sessions of the first storage engine

A row is looked up from the innermost level outwards; levels are merged when
savepoints are released, and published at the end. The verdicts of limits and
unique checks come with the rows that are written. To a client all this is a map
from row ids to rows, with a copy for each savepoint to go back to.
-/

namespace FastPg.Legacy

open List

structure State where
  relation : RelationRows := {}
  levels : List Level := []

/-- A row to be written: whether the limits admit it, its cells, unless one is
    behind a null pointer, and whether its keys are free. -/
structure RowInput where
  fits : Bool
  cells : Option (List Datum)
  accepted : Bool

def RowInput.cells? (input : RowInput) : Option (List Datum) :=
  if input.fits && input.accepted then input.cells else none

inductive Op where
  | insert (inputs : List RowInput)
  | update (rowId : Nat) (input : RowInput)
  | delete (rowId : Nat)
  | replaceFrom (rows : List Row)
  | subxactBegin
  | subxactCommit
  | subxactAbort
  | commit
  | abort

namespace State

variable (state : State)

/-- The innermost level; a transaction is started with an empty one. -/
def top : Level := state.levels.headD {}

def setTop (top : Level) : State := { state with levels := top :: state.levels.tail }

def findRow (rowId : Nat) : List Level → Option Row
  | [] => state.relation.committedRowIndex.get rowId
  | level :: outer => (level.rows.find? (·.rowId = rowId)).or
      (if rowId ∈ level.deletedRowIds then none else findRow rowId outer)

def findVisibleRow (rowId : Nat) : Option Row :=
  if rowId = 0 then none else state.findRow rowId state.levels

def visibleRowIds : List Level → List Nat
  | [] => state.relation.committedRowIndex.entries.map Prod.fst
  | level :: outer => (visibleRowIds outer).filter (· ∉ level.deletedRowIds) ++
      level.rows.map Row.rowId

/-- The loops of `visible_row_count`: the count, the own rows that are seen, and the
    committed rows that are not. -/
def countDeleted (acc : Nat × List Nat × List Nat) (rowId : Nat) : Nat × List Nat × List Nat :=
  if rowId ∈ acc.2.1 then (acc.1 - 1, acc.2.1.erase rowId, acc.2.2)
  else if rowId ∉ acc.2.2 ∧ (state.relation.committedRowIndex.get rowId).isSome then
    (acc.1 - 1, acc.2.1, rowId :: acc.2.2)
  else acc

def countRow (acc : Nat × List Nat × List Nat) (row : Row) : Nat × List Nat × List Nat :=
  if row.rowId ∈ acc.2.1 then acc else (acc.1 + 1, row.rowId :: acc.2.1, acc.2.2)

def countLevels : List Level → Nat × List Nat × List Nat
  | [] => (state.relation.committedRowIndex.entries.length, [], [])
  | level :: outer =>
    level.rows.foldl countRow (level.deletedRowIds.foldl state.countDeleted (countLevels outer))

def visibleRowCount : Nat := (state.countLevels state.levels).1

/-- The loop over the rows of a batch, up to one that fails. A row that the limits
    admit takes the next row id. -/
def insertRows (rows : List Row) (next : Nat) : List RowInput → List Row × Nat × Bool
  | [] => (rows, next, true)
  | input :: rest =>
    if !input.fits then (rows, next, false) else
    match input.cells? with
    | none => (rows, next + 1, false)
    | some cells => insertRows (rows ++ [⟨next, cells⟩]) (next + 1) rest

/-- One row or several; a batch that fails is taken back, but for the row ids. -/
def insert (inputs : List RowInput) : State × Bool :=
  let before := state.top.rows
  let (rows, nextRowId, done) := insertRows before state.relation.nextRowId inputs
  let rows := if done then rows else rows.take before.length
  (⟨{ state.relation with nextRowId }, { state.top with rows } :: state.levels.tail⟩, done)

/-- A version is marked as deleted, and an own one is removed. -/
def strike (rowId : Nat) : Level :=
  { state.top with
    deletedRowIds := rowId :: state.top.deletedRowIds
    rows := removeRowIds state.top.rows [rowId] }

def update (rowId : Nat) (input : RowInput) : State × Bool :=
  match state.findVisibleRow rowId, input.cells? with
  | some _, some cells => (state.setTop { state.strike rowId with
      rows := (state.strike rowId).rows ++ [⟨rowId, cells⟩] }, true)
  | _, _ => (state, false)

def delete (rowId : Nat) : State × Bool :=
  if (state.findVisibleRow rowId).isSome then (state.setTop (state.strike rowId), true)
  else (state, false)

/-- The relation is cleared in the innermost level, and rows of another one are
    copied. -/
def replaceFrom (rows : List Row) : State :=
  let visible := state.visibleRowIds state.levels
  let level : Level :=
    { rows
      deletedRowIds := if visible.isEmpty then [] else state.top.deletedRowIds ++ visible
      savedNextRowId := some (state.top.savedNextRowId.getD state.relation.nextRowId) }
  let nextRowId := max 1 ((rows.map (·.rowId + 1)).max?.getD 1)
  ⟨{ state.relation with nextRowId }, level :: state.levels.tail⟩

def subxactBegin : State := { state with levels := {} :: state.top :: state.levels.tail }

def subxactCommit : State :=
  match state.levels with
  | child :: parent :: outer => { state with levels := parent.merge child :: outer }
  | _ => state

def subxactAbort : State :=
  match state.levels with
  | child :: parent :: outer => ⟨{ state.relation with
      nextRowId := child.savedNextRowId.getD state.relation.nextRowId }, parent :: outer⟩
  | _ => state

def commit : State :=
  match state.levels with
  | [] => state
  | top :: outer => ⟨state.relation.commitOverlay
      (outer.foldl (fun child parent => parent.merge child) top), []⟩

def abort : State :=
  ⟨{ state.relation with
    nextRowId := state.levels.foldl (fun next level => level.savedNextRowId.getD next)
      state.relation.nextRowId }, []⟩

def step : Op → State × Bool
  | .insert inputs => state.insert inputs
  | .update rowId input => state.update rowId input
  | .delete rowId => state.delete rowId
  | .replaceFrom rows => (state.replaceFrom rows, true)
  | .subxactBegin => (state.subxactBegin, true)
  | .subxactCommit => (state.subxactCommit, true)
  | .subxactAbort => (state.subxactAbort, true)
  | .commit => (state.commit, true)
  | .abort => (state.abort, true)

end State

/-! ## The map of a client -/

/-- The rows there are, those of every savepoint, innermost first, and those
    before the transaction. -/
structure Database where
  current : Contents := fun _ => none
  saved : List Contents := []
  committed : Contents := fun _ => none

namespace Database

variable (db : Database)

def add (rows : List Row) : Database :=
  { db with current := fun rowId => (db.current rowId).or (rows.find? (·.rowId = rowId)) }

def set (rowId : Nat) (row : Option Row) : Database :=
  { db with current := Function.update db.current rowId row }

/-- When an operation fails. -/
def Refuses : Op → Prop
  | .insert inputs => ∃ input ∈ inputs, input.cells? = none
  | .update rowId input => db.current rowId = none ∨ input.cells? = none
  | .delete rowId => db.current rowId = none
  | _ => False

/-- What an operation does. Inserted rows get new ids. -/
inductive Step : Op → Bool → Database → Prop
  | refused {op : Op} (reason : db.Refuses op) : Step op false db
  | inserted {inputs : List RowInput} {rows : List Row}
      (given : inputs.map RowInput.cells? = rows.map (some ·.cells))
      (distinct : (rows.map Row.rowId).Nodup) (new : ∀ row ∈ rows, db.current row.rowId = none) :
      Step (.insert inputs) true (db.add rows)
  | updated {rowId : Nat} {input : RowInput} {cells : List Datum}
      (there : (db.current rowId).isSome) (given : input.cells? = some cells) :
      Step (.update rowId input) true (db.set rowId (some ⟨rowId, cells⟩))
  | deleted {rowId : Nat} (there : (db.current rowId).isSome) :
      Step (.delete rowId) true (db.set rowId none)
  | replaced {rows : List Row} : Step (.replaceFrom rows) true
      { db with current := fun rowId => rows.find? (·.rowId = rowId) }
  | subxactBegin : Step .subxactBegin true { db with saved := db.current :: db.saved }
  | subxactCommit : Step .subxactCommit true { db with saved := db.saved.tail }
  | subxactAbort : Step .subxactAbort true
      { db with current := db.saved.headD db.current, saved := db.saved.tail }
  | commit : Step .commit true { db with saved := [], committed := db.current }
  | abort : Step .abort true { db with saved := [], current := db.committed }

/-- Operations with what they reported, from an empty database. -/
inductive Runs : List (Op × Bool) → Database → Prop
  | start : Runs [] {}
  | step {trace : List (Op × Bool)} {db db' : Database} {op : Op} {done : Bool} :
      Runs trace db → db.Step op done db' → Runs (trace ++ [(op, done)]) db'

end Database

/-! ## Every run -/

/-- Every level lies over those outside it, also when the levels inside are given up. -/
def Tied (base : Contents) : Nat → List Level → Prop
  | next, [] => Bounded next base
  | next, level :: outer => level.Over (outer.foldr Level.over base) next ∧
      Tied base (level.savedNextRowId.getD next) outer

theorem Tied.mono {base : Contents} {next next' : Nat} {levels : List Level}
    (tied : Tied base next levels) (later : next ≤ next') : Tied base next' levels := by
  induction levels generalizing next next' with
  | nil => exact Bounded.mono tied later
  | cons level outer ih =>
    refine ⟨tied.1.mono later, ih tied.2 ?_⟩
    cases level.savedNextRowId <;> simp [later]

/-- What every level shows over those outside it. -/
def enclosing (base : Contents) : List Level → List Contents
  | [] => []
  | level :: outer => (level :: outer).foldr Level.over base :: enclosing base outer

theorem Level.over_empty {outer : Contents} : Level.over {} outer = outer := by
  funext rowId
  simp [Level.over, shown]

namespace State

variable {state : State} {db : Database} {level : Level} {next : Nat}

/-- Rows that replace others have ids of their own. Where no row is visible, what
    the innermost level deleted is forgotten, so it must not have deleted any. -/
def Allows (state : State) : Op → Prop
  | .replaceFrom rows => (rows.map Row.rowId).Nodup ∧ (∀ row ∈ rows, 0 < row.rowId) ∧
      (state.visibleRowIds state.levels = [] → state.top.deletedRowIds = [])
  | _ => True

abbrev base (state : State) : Contents := state.relation.committedRowIndex.get

/-- What is outside the innermost level. -/
def outer (state : State) : Contents := state.levels.tail.foldr Level.over state.base

/-- Levels lie over each other, and show what is in the database. -/
structure Inv (state : State) (db : Database) : Prop where
  tied : Tied state.base state.relation.nextRowId state.levels
  current : db.current = state.levels.foldr Level.over state.base
  saved : db.saved = enclosing state.base state.levels.tail
  committed : db.committed = state.base

theorem findRow_eq (rowId : Nat) (levels : List Level) :
    state.findRow rowId levels = levels.foldr Level.over state.base rowId := by
  induction levels with
  | nil => rfl
  | cons level outer ih => rw [findRow, foldr_cons, Level.over, ← ih, shown]

namespace Inv

/-- A transaction that has not started is one with an empty level. -/
theorem started (inv : state.Inv db) : (state.setTop state.top).Inv db := by
  obtain ⟨relation, _ | ⟨top, outer⟩⟩ := state
  · obtain ⟨tied, current, saved, committed⟩ := inv
    refine ⟨⟨?_, tied⟩, current.trans Level.over_empty.symm, saved, committed⟩
    exact ⟨nodup_nil, nofun, Level.over_empty ▸ tied⟩
  · exact inv

theorem top (inv : state.Inv db) : state.top.Over state.outer state.relation.nextRowId :=
  inv.started.tied.1

theorem shows (inv : state.Inv db) : db.current = state.top.over state.outer := inv.started.current

/-- The innermost level becomes another one. -/
theorem setTop (inv : state.Inv db) (lies : level.Over state.outer next)
    (saved : state.top.savedNextRowId.getD state.relation.nextRowId ≤
      level.savedNextRowId.getD next)
    {current : Contents} (shows : current = level.over state.outer) :
    Inv ⟨{ state.relation with nextRowId := next }, level :: state.levels.tail⟩
      { db with current } where
  tied := ⟨lies, inv.started.tied.2.mono saved⟩
  current := shows
  saved := inv.saved
  committed := inv.committed

theorem found (inv : state.Inv db) (rowId : Nat) :
    state.findVisibleRow rowId = db.current rowId := by
  unfold findVisibleRow
  split
  next zero =>
    symm
    rw [inv.shows]
    refine Option.eq_none_iff_forall_ne_some.mpr fun row seen => ?_
    have := inv.top.bounded.ids rowId row seen
    omega
  next => rw [findRow_eq, inv.current]

/-- A batch that fails leaves the rows as they were. -/
theorem same (inv : state.Inv db) (later : state.relation.nextRowId ≤ next) :
    Inv ⟨{ state.relation with nextRowId := next }, state.top :: state.levels.tail⟩ db := by
  refine inv.setTop (inv.top.mono later) ?_ inv.shows
  cases state.top.savedNextRowId <;> simp [later]

theorem insertRows_spec {rows : List Row} {inputs : List RowInput} :
    let after := insertRows rows next inputs
    next ≤ after.2.1 ∧ ∃ news, after.1 = rows ++ news ∧
      news.map Row.rowId = range' next news.length ∧
      (after.2.2 = false → ∃ input ∈ inputs, input.cells? = none) ∧
      (after.2.2 = true → after.2.1 = next + news.length ∧
        inputs.map RowInput.cells? = news.map (some ·.cells)) := by
  induction inputs generalizing rows next with
  | nil => exact ⟨Nat.le_refl _, [], by simp [insertRows]⟩
  | cons input rest ih =>
    unfold insertRows
    split
    next small => exact ⟨Nat.le_refl _, [], by simp_all [RowInput.cells?]⟩
    next =>
      split
      next missing => exact ⟨Nat.le_succ _, [], by simp [missing]⟩
      next cells given =>
        obtain ⟨later, news, all, ids, refused, done⟩ := @ih (next + 1) (rows ++ [⟨next, cells⟩])
        refine ⟨Nat.le_of_succ_le later, ⟨next, cells⟩ :: news, by simpa using all,
          by simp [range'_succ, ids], fun failed => ?_, fun all => ?_⟩
        · exact (refused failed).imp fun input missing => ⟨.tail _ missing.1, missing.2⟩
        · obtain ⟨count, others⟩ := done all
          rw [count, length_cons]
          exact ⟨by omega, by simp [given, others]⟩

/-- Rows are added with new ids, or the batch is taken back. -/
theorem insert (inv : state.Inv db) (inputs : List RowInput) :
    ∃ db', db.Step (.insert inputs) (state.insert inputs).2 db' ∧
      Inv (state.insert inputs).1 db' := by
  obtain ⟨later, news, rows, ids, refused, done⟩ :=
    @insertRows_spec state.relation.nextRowId state.top.rows inputs
  dsimp only [State.insert]
  generalize insertRows _ _ inputs = after at *
  obtain ⟨after, next, _ | _⟩ := after
  all_goals
    dsimp only at rows later done ⊢
    subst rows
  · refine ⟨db, .refused (refused rfl), ?_⟩
    simp only [Bool.false_eq_true, if_false, take_left]
    exact inv.same later
  · obtain ⟨rfl, given⟩ := done rfl
    obtain ⟨lies, shows⟩ := @Level.Over.insert _ { state.top with rows := state.top.rows ++ news }
      _ _ inv.top news rfl rfl ids
    refine ⟨db.add news, .inserted given (ids ▸ nodup_range') fun row listed => ?_, ?_⟩
    · refine Option.eq_none_iff_forall_ne_some.mpr fun other seen => ?_
      have := inv.top.bounded.ids _ other (inv.shows ▸ seen)
      have := mem_range'_1.mp (ids ▸ mem_map_of_mem listed)
      omega
    · refine inv.setTop lies ?_ (shows.trans (by rw [← inv.shows]; rfl)).symm
      cases state.top.savedNextRowId <;> simp

theorem update (inv : state.Inv db) (rowId : Nat) (input : RowInput) :
    ∃ db', db.Step (.update rowId input) (state.update rowId input).2 db' ∧
      Inv (state.update rowId input).1 db' := by
  unfold State.update
  split
  next old cells seen given =>
    rw [inv.found] at seen
    obtain ⟨lies, shows⟩ := @Level.Over.strike _
      { state.strike rowId with rows := (state.strike rowId).rows ++ [⟨rowId, cells⟩] } _ _ inv.top
      rowId (some ⟨rowId, cells⟩) (by simp [← inv.shows, seen]) (by simp) rfl rfl
    exact ⟨_, .updated (by simp [seen]) given,
      inv.setTop lies (Nat.le_refl _) (by rw [shows, inv.shows])⟩
  next missing =>
    refine ⟨db, .refused ?_, inv⟩
    rw [inv.found] at missing
    cases seen : db.current rowId
    · exact .inl seen
    · cases given : input.cells?
      · exact .inr given
      · exact absurd given (missing _ _ seen)

theorem delete (inv : state.Inv db) (rowId : Nat) :
    ∃ db', db.Step (.delete rowId) (state.delete rowId).2 db' ∧ Inv (state.delete rowId).1 db' := by
  unfold State.delete
  rw [inv.found]
  split
  next seen =>
    obtain ⟨lies, shows⟩ := @Level.Over.strike _ (state.strike rowId) _ _ inv.top rowId none
      (inv.shows ▸ seen) nofun (append_nil _).symm rfl
    exact ⟨_, .deleted seen, inv.setTop lies (Nat.le_refl _) (by rw [shows, inv.shows])⟩
  next missing => exact ⟨db, .refused (Option.not_isSome_iff_eq_none.mp missing), inv⟩

theorem mem_visibleRowIds (inv : state.Inv db) {rowId : Nat} :
    rowId ∈ state.visibleRowIds state.levels ↔ (db.current rowId).isSome := by
  rw [inv.current]
  induction state.levels with
  | nil =>
    rw [visibleRowIds, mem_map, foldr_nil, Option.isSome_iff_exists]
    simp [Dict.mem_entries]
  | cons level outer ih =>
    rw [visibleRowIds, mem_append, mem_filter, ih, foldr_cons, Level.over, Option.isSome_or,
      Bool.or_eq_true, isSome_shown, or_comm]
    by_cases gone : rowId ∈ level.deletedRowIds <;> simp [gone]

theorem visible_or_deleted (inv : state.Inv db) {rowId : Nat} (there : (state.outer rowId).isSome) :
    rowId ∈ state.top.deletedRowIds ++ state.visibleRowIds state.levels := by
  rw [mem_append, inv.mem_visibleRowIds, inv.shows, Level.over]
  by_cases gone : rowId ∈ state.top.deletedRowIds <;> simp [gone, there]

theorem replaceFrom (inv : state.Inv db) {rows : List Row}
    (allowed : state.Allows (.replaceFrom rows)) :
    Inv (state.replaceFrom rows) { db with current := shown rows } := by
  obtain ⟨distinct, positive, guard⟩ := allowed
  have covers : ∀ rowId, (state.outer rowId).isSome →
      rowId ∈ (state.replaceFrom rows).top.deletedRowIds := by
    intro rowId there
    have := inv.visible_or_deleted there
    change rowId ∈ if _ then _ else _
    split
    next none => simp_all
    next => exact this
  have bounded : Bounded (state.replaceFrom rows).relation.nextRowId (shown rows) := by
    refine ⟨Nat.lt_of_lt_of_le Nat.one_pos (Nat.le_max_left ..), fun rowId row there => ?_⟩
    have listed := mem_of_find?_eq_some there
    have above := @le_max?_getD_of_mem _ _ 1 (mem_map_of_mem (f := (·.rowId + 1)) listed)
    have id : row.rowId = rowId := by simpa using find?_some there
    exact ⟨id, id ▸ positive row listed, by simp only [State.replaceFrom]; omega⟩
  obtain ⟨lies, shows⟩ :=
    @Level.Over.replace (state.replaceFrom rows).top _ _ distinct covers bounded
  exact inv.setTop lies (Nat.le_refl _) shows.symm

theorem subxactBegin (inv : state.Inv db) :
    Inv state.subxactBegin { db with saved := db.current :: db.saved } := by
  obtain ⟨tied, current, saved, committed⟩ := inv.started
  refine ⟨⟨?_, tied⟩, current.trans Level.over_empty.symm, ?_, committed⟩
  · exact ⟨nodup_nil, nofun, Level.over_empty ▸ tied.1.bounded⟩
  · rw [current, saved]
    rfl

variable {child parent : Level} {levels : List Level} {relation : RelationRows}

theorem merge (inv : Inv ⟨relation, child :: parent :: levels⟩ db) :
    Inv ⟨relation, parent.merge child :: levels⟩ { db with saved := db.saved.tail } := by
  obtain ⟨⟨inner, lies, tied⟩, current, saved, committed⟩ := inv
  obtain ⟨lies', shows⟩ := inner.merge lies
  refine ⟨⟨lies', ?_⟩, current.trans shows.symm, by rw [saved]; rfl, committed⟩
  have same : (parent.merge child).savedNextRowId.getD relation.nextRowId =
      parent.savedNextRowId.getD (child.savedNextRowId.getD relation.nextRowId) := by
    simp only [Level.merge]
    cases parent.savedNextRowId <;> rfl
  exact same ▸ tied

theorem commit (inv : Inv ⟨relation, level :: levels⟩ db) :
    Inv ⟨relation.commitOverlay (levels.foldl (fun child parent => parent.merge child) level), []⟩
      { db with saved := [], committed := db.current } := by
  induction levels generalizing level db with
  | nil =>
    obtain ⟨⟨lies, tied⟩, current, saved, committed⟩ := inv
    have base := @RelationRows.commitOverlay_get relation level lies.distinct
    have same := current.trans base.symm
    refine ⟨?_, same, rfl, same⟩
    simp only [Tied, State.base, foldl_nil, base]
    exact lies.bounded
  | cons parent outer ih =>
    have later := @ih _ _ inv.merge
    exact later

theorem abort (inv : state.Inv db) :
    Inv state.abort { db with saved := [], current := db.committed } := by
  refine ⟨?_, inv.committed, rfl, inv.committed⟩
  have bounded : ∀ levels next, Tied state.base next levels →
      Bounded (levels.foldl (fun next level => level.savedNextRowId.getD next) next)
        state.base := by
    intro levels
    induction levels with
    | nil => exact fun next tied => tied
    | cons level outer ih => exact fun next tied => ih _ tied.2
  exact bounded _ _ inv.tied

/-- Every operation is one of the map. -/
theorem step (inv : state.Inv db) {op : Op} (allowed : state.Allows op) :
    ∃ db', db.Step op (state.step op).2 db' ∧ Inv (state.step op).1 db' := by
  cases op with
  | insert inputs => exact inv.insert inputs
  | update rowId input => exact inv.update rowId input
  | delete rowId => exact inv.delete rowId
  | replaceFrom rows => exact ⟨_, .replaced, inv.replaceFrom allowed⟩
  | subxactBegin => exact ⟨_, .subxactBegin, inv.subxactBegin⟩
  | subxactCommit =>
    refine ⟨_, .subxactCommit, ?_⟩
    obtain ⟨relation, _ | ⟨child, _ | ⟨parent, outer⟩⟩⟩ := state
    case cons.cons => exact inv.merge
    all_goals exact ⟨inv.tied, inv.current, by rw [inv.saved]; rfl, inv.committed⟩
  | subxactAbort =>
    refine ⟨_, .subxactAbort, ?_⟩
    obtain ⟨relation, _ | ⟨child, _ | ⟨parent, outer⟩⟩⟩ := state
    case cons.cons =>
      obtain ⟨⟨inner, tied⟩, current, saved, committed⟩ := inv
      exact ⟨tied, by rw [saved]; rfl, by rw [saved]; rfl, committed⟩
    all_goals exact ⟨inv.tied, by rw [inv.saved]; exact inv.current,
      by rw [inv.saved]; rfl, inv.committed⟩
  | commit =>
    refine ⟨_, .commit, ?_⟩
    obtain ⟨relation, _ | ⟨top, outer⟩⟩ := state
    · exact ⟨inv.tied, inv.current, rfl, inv.current⟩
    · exact inv.commit
  | abort => exact ⟨_, .abort, inv.abort⟩

end Inv

/-- A run, with what every operation reported. -/
def run (ops : List Op) : State × List (Op × Bool) :=
  ops.foldl (fun both op => let after := both.1.step op
    (after.1, both.2 ++ [(op, after.2)])) ({}, [])

/-- Every operation is allowed where it is made. -/
inductive Allowed : List Op → Prop
  | nil : Allowed []
  | concat {ops : List Op} {op : Op} : Allowed ops → (run ops).1.Allows op → Allowed (ops ++ [op])

theorem run_inv {ops : List Op} (allowed : Allowed ops) :
    ∃ db, Database.Runs (run ops).2 db ∧ (run ops).1.Inv db := by
  induction allowed with
  | nil => exact ⟨{}, .start, ⟨Nat.one_pos, nofun⟩, rfl, rfl, rfl⟩
  | @concat ops op _ next ih =>
    obtain ⟨db, runs, inv⟩ := ih
    obtain ⟨db', step, after⟩ := inv.step next
    have last : run (ops ++ [op]) = (((run ops).1.step op).1,
        (run ops).2 ++ [(op, ((run ops).1.step op).2)]) := by simp [run]
    exact ⟨db', last ▸ .step runs step, last ▸ after⟩

/-- What a session reports and finds in any run is what a map with savepoints does. -/
theorem run_refines (ops : List Op) (allowed : Allowed ops) :
    ∃ db, Database.Runs (run ops).2 db ∧
      ∀ rowId, (run ops).1.findVisibleRow rowId = db.current rowId := by
  obtain ⟨db, runs, inv⟩ := run_inv allowed
  exact ⟨db, runs, inv.found⟩

/-- A row is written, replaced behind a savepoint, and committed. -/
theorem run_refines_replaced : ∃ db, Database.Runs [(.insert [⟨true, some [], true⟩], true),
    (.subxactBegin, true), (.replaceFrom [⟨7, [.null]⟩], true), (.commit, true)] db ∧
      db.current 7 = some ⟨7, [.null]⟩ ∧ db.current 1 = none := by
  have inserted := @Allowed.concat [] (.insert [⟨true, some [], true⟩]) .nil trivial
  have saved := @Allowed.concat _ .subxactBegin inserted trivial
  have replaced := @Allowed.concat _ (.replaceFrom [⟨7, [.null]⟩]) saved
    ⟨by decide, by decide, fun _ => rfl⟩
  have allowed := @Allowed.concat _ .commit replaced trivial
  obtain ⟨db, runs, found⟩ := run_refines _ allowed
  exact ⟨db, runs, (found 7).symm, (found 1).symm⟩

/-- The rows that are seen, as they are counted. -/
def seen (state : State) (acc : Nat × List Nat × List Nat) : List Nat :=
  acc.2.1 ++ (state.relation.committedRowIndex.entries.map Prod.fst).filter (· ∉ acc.2.2)

def Exact (state : State) (acc : Nat × List Nat × List Nat) : Prop :=
  (state.seen acc).Nodup ∧ acc.1 = (state.seen acc).length

variable {acc : Nat × List Nat × List Nat}

theorem Exact.delete (exact : state.Exact acc) (rowId : Nat) :
    state.seen (state.countDeleted acc rowId) = (state.seen acc).erase rowId ∧
      (state.countDeleted acc rowId).1 = ((state.seen acc).erase rowId).length := by
  obtain ⟨distinct, count⟩ := exact
  unfold countDeleted
  split
  next own =>
    have there : rowId ∈ state.seen acc := mem_append_left _ own
    exact ⟨(erase_append_left _ own).symm, by simp [length_erase_of_mem there, count]⟩
  next other =>
    split
    next committed =>
      have there : rowId ∈ state.seen acc := by
        obtain ⟨row, found⟩ := Option.isSome_iff_exists.mp committed.2
        have listed := mem_map_of_mem (f := Prod.fst) (Dict.mem_entries.mpr found)
        exact mem_append_right _ (mem_filter.mpr ⟨listed, by simpa using committed.1⟩)
      refine ⟨?_, by simp [length_erase_of_mem there, count]⟩
      rw [distinct.erase_eq_filter]
      simp only [seen, filter_append, filter_filter]
      congr 1
      · exact (filter_eq_self.mpr (by grind)).symm
      · exact filter_congr (by grind)
    next missing =>
      have nowhere : rowId ∉ state.seen acc := by
        intro there
        obtain ⟨listed, kept⟩ := mem_filter.mp ((mem_append.mp there).resolve_left other)
        obtain ⟨⟨_, row⟩, found, rfl⟩ := mem_map.mp listed
        exact missing ⟨by simpa using kept, by simp [Dict.mem_entries.mp found]⟩
      rw [erase_of_not_mem nowhere]
      exact ⟨rfl, count⟩

theorem Exact.deleteAll (exact : state.Exact acc) (rowIds : List Nat) :
    state.Exact (rowIds.foldl state.countDeleted acc) ∧ ∀ rowId,
      rowId ∈ state.seen (rowIds.foldl state.countDeleted acc) ↔
        rowId ∈ state.seen acc ∧ rowId ∉ rowIds := by
  induction rowIds generalizing acc with
  | nil => exact ⟨exact, by simp⟩
  | cons first rest ih =>
    obtain ⟨same, count⟩ := exact.delete first
    obtain ⟨exact', mem⟩ := ih ⟨same ▸ exact.1.erase first, same ▸ count⟩
    refine ⟨exact', fun rowId => ?_⟩
    rw [foldl_cons, mem, same, exact.1.mem_erase_iff, mem_cons]
    tauto

theorem Exact.insertAll (exact : state.Exact acc) {rows : List Row}
    (distinct : (rows.map Row.rowId).Nodup) (new : ∀ row ∈ rows, row.rowId ∉ state.seen acc) :
    state.Exact (rows.foldl countRow acc) ∧ ∀ rowId,
      rowId ∈ state.seen (rows.foldl countRow acc) ↔
        rowId ∈ rows.map Row.rowId ∨ rowId ∈ state.seen acc := by
  induction rows generalizing acc with
  | nil => exact ⟨exact, by simp⟩
  | cons row rest ih =>
    obtain ⟨first, others⟩ := forall_mem_cons.mp new
    obtain ⟨alone, distinct⟩ := nodup_cons.mp distinct
    have step : countRow acc row = (acc.1 + 1, row.rowId :: acc.2.1, acc.2.2) :=
      if_neg fun own => first (mem_append_left _ own)
    have seen : state.seen (countRow acc row) = row.rowId :: state.seen acc := by
      rw [step]
      rfl
    have exact' : state.Exact (countRow acc row) := by
      rw [Exact, seen, step]
      exact ⟨nodup_cons.mpr ⟨first, exact.1⟩, by simp [exact.2]⟩
    have later : ∀ other ∈ rest, other.rowId ∉ state.seen (countRow acc row) := by
      intro other listed
      rw [seen, mem_cons, not_or]
      exact ⟨fun same => alone (same ▸ mem_map_of_mem listed), others other listed⟩
    obtain ⟨after, mem⟩ := ih exact' distinct later
    refine ⟨after, fun rowId => ?_⟩
    rw [foldl_cons, mem, seen, map_cons, mem_cons, mem_cons]
    tauto

theorem countLevels_spec {levels : List Level} (tied : Tied state.base next levels) :
    state.Exact (state.countLevels levels) ∧
      ∀ rowId, rowId ∈ state.seen (state.countLevels levels) ↔
        (levels.foldr Level.over state.base rowId).isSome := by
  induction levels generalizing next with
  | nil =>
    refine ⟨⟨by simpa [seen, countLevels] using state.relation.committedRowIndex.keyed,
      by simp [seen, countLevels]⟩, fun rowId => ?_⟩
    simp [seen, countLevels, Dict.mem_entries, Option.isSome_iff_exists]
  | cons level outer ih =>
    obtain ⟨exact, visible⟩ := ih tied.2
    obtain ⟨exact, kept⟩ := exact.deleteAll level.deletedRowIds
    have new : ∀ row ∈ level.rows, row.rowId ∉ state.seen
        (level.deletedRowIds.foldl state.countDeleted (state.countLevels outer)) :=
      fun row listed there => ((kept _).mp there).2 (tied.1.deleted _
        (isSome_shown.mpr (mem_map_of_mem listed)) ((visible _).mp ((kept _).mp there).1))
    obtain ⟨exact, all⟩ := exact.insertAll tied.1.distinct new
    refine ⟨exact, fun rowId => ?_⟩
    rw [countLevels, all, kept, visible, foldr_cons, Level.over, Option.isSome_or, Bool.or_eq_true,
      isSome_shown]
    by_cases gone : rowId ∈ level.deletedRowIds <;> simp [gone]

/-- In every run the count, which is made without listing the rows, is the number of
    visible rows. -/
theorem run_visibleRowCount (ops : List Op) (allowed : Allowed ops) :
    ∃ rowIds : List Nat, rowIds.Nodup ∧
      (∀ rowId, rowId ∈ rowIds ↔ ((run ops).1.findVisibleRow rowId).isSome) ∧
      (run ops).1.visibleRowCount = rowIds.length := by
  obtain ⟨db, -, inv⟩ := run_inv allowed
  obtain ⟨⟨distinct, count⟩, visible⟩ := countLevels_spec inv.tied
  refine ⟨_, distinct, fun rowId => ?_, count⟩
  rw [visible, inv.found, inv.current]

/-- A row that is written, and deleted behind a savepoint. -/
theorem allowed_deleted : Allowed [.insert [⟨true, some [], true⟩], .subxactBegin, .delete 1] :=
  @Allowed.concat [_, _] (.delete 1) (@Allowed.concat [_] .subxactBegin
    (@Allowed.concat [] (.insert _) .nil trivial) trivial) trivial

theorem run_visibleRowCount_deleted : ∃ rowIds : List Nat, rowIds.Nodup ∧ 1 ∉ rowIds ∧
    (run [.insert [⟨true, some [], true⟩], .subxactBegin, .delete 1]).1.visibleRowCount =
      rowIds.length := by
  obtain ⟨rowIds, distinct, visible, count⟩ := run_visibleRowCount _ allowed_deleted
  exact ⟨rowIds, distinct, fun there => Bool.false_ne_true ((visible 1).mp there), count⟩

/-- Rows that replace others are seen. So is nothing else, unless the session saw no
    row: then what it had deleted since its last savepoint is back. -/
theorem run_replaceFrom (ops : List Op) (allowed : Allowed ops) (rows : List Row) (rowId : Nat)
    (used : rowId ≠ 0) :
    ((run ops).1.replaceFrom rows).findVisibleRow rowId = (rows.find? (·.rowId = rowId)).or
      (if (run ops).1.visibleRowIds (run ops).1.levels = []
        then (run ops).1.findRow rowId (run ops).1.levels.tail else none) := by
  obtain ⟨db, -, inv⟩ := run_inv allowed
  generalize (run ops).1 = state at inv ⊢
  rw [findVisibleRow, if_neg used, findRow_eq, findRow_eq, ← outer]
  refine congrArg (Option.or _) ?_
  change (if rowId ∈ if _ then _ else _ then none else state.outer rowId) = _
  cases there : state.outer rowId with
  | none => simp
  | some row =>
    have gone : rowId ∈ _ := inv.visible_or_deleted (by simp [there])
    by_cases none : state.visibleRowIds state.levels = [] <;> simp_all

theorem run_replaceFrom_revived :
    ((run [.insert [⟨true, some [], true⟩], .subxactBegin, .delete 1]).1.replaceFrom
      []).findVisibleRow 1 = some ⟨1, []⟩ :=
  (run_replaceFrom _ allowed_deleted [] 1 (by decide)).trans rfl

end State

end FastPg.Legacy
