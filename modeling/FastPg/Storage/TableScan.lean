import FastPg.Storage.ScanOrder

/-! # The scan of the table access method

The access method fetches rows one by one. Forwards it reads ahead: a batch of
rows is taken from the storage scan and handed out row by row. Backwards it asks
the storage scan for single rows; a batch that is still being read is dropped
first, and the storage scan set back to the row that was returned last. Rows
that do not pass the scan keys are passed over.

A fetch follows a plain cursor over the rows of the scan wherever the turn finds
the storage scan on the row that was returned last.
-/

namespace FastPg.Storage

open Assoc Redirect Transition Option
open List hiding insert lookup

/-- A row in a slot: its tid, the number of stored attributes and the values. -/
abbrev SlotRow := Tid × Nat × List DecodedDatum

/-- `FASTPG_MEM_SCAN_BATCH_ROWS` -/
def scanBatchRows : Nat := 128

/-- The parts of a scan descriptor that fetching from this storage uses; the
    count of the batch is the length of the list. -/
structure TableScan where
  scan : ScanState
  batch : List SlotRow
  batchIndex : Nat
  batchForward : Bool
  batchExhaustedForward : Bool
  batchExhaustedBackward : Bool
  deriving Repr

namespace TableScan

/-- `fastpg_mem_scan_begin`, with the scan of the storage it opened. -/
def scanBegin (scan : ScanState) : TableScan := ⟨scan, [], 0, false, false, false⟩

/-- `fastpg_mem_scan_discard_batch` -/
def discardBatch (table : TableScan) : TableScan := { table with batch := [], batchIndex := 0 }

/-- `fastpg_mem_scan_reset_batch_exhaustion` -/
def resetBatchExhaustion (table : TableScan) : TableScan :=
  { table with batchExhaustedForward := false, batchExhaustedBackward := false }

/-- The start of a fetch: a batch of the other direction is dropped, and where
    it was not read to its end the storage scan is set to the tid of the last
    row that was taken from it. -/
def turn (table : TableScan) (forward : Bool) : TableScan :=
  if table.batch.length > 0 ∧ table.batchForward ≠ forward then
    let table :=
      if table.batch.length > table.batchIndex ∧ table.batchIndex > 0 then
        match table.batch[table.batchIndex - 1]? with
        | some row => { table with scan := table.scan.scanSetPosition row.1 }
        | none => table
      else table
    table.discardBatch.resetBatchExhaustion
  else table

section Fetch

variable (relation : RelationStorage) (overlays : Overlays) (natts : Nat) (keyTest : SlotRow → Bool)

/-- Rows one by one, as a fetch backwards takes them. -/
def nextSingle (forward : Bool) : Nat → TableScan → TableScan × Option SlotRow
  | 0, table => (table, none)
  | fuel + 1, table =>
    match table.scan.scanNext relation overlays natts forward with
    | (scan, none) => ({ table with scan }, none)
    | (scan, some row) =>
      if keyTest row.output then ({ table with scan }, some row.output)
      else nextSingle forward fuel { table with scan }

/-- The next batch. A short one means that there is nothing behind it. -/
def refill (batchRows : Nat) (table : TableScan) : TableScan :=
  let (scan, rows) := table.scan.scanNextBatch relation overlays natts true batchRows
  { scan
    batch := rows.map ScannedRow.output
    batchIndex := 0
    batchForward := true
    batchExhaustedForward := if rows.length < batchRows then true else table.batchExhaustedForward
    batchExhaustedBackward := false }

/-- Have a row in the batch; false if there is none. -/
def load (batchRows : Nat) (table : TableScan) : TableScan × Bool :=
  if table.batchIndex ≥ table.batch.length then
    if table.batchExhaustedForward then (table, false)
    else
      let table := table.refill relation overlays natts batchRows
      (table, 0 < table.batch.length)
  else (table, true)

/-- Rows out of batches, as a fetch forwards takes them. -/
def nextBatched (batchRows : Nat) : Nat → TableScan → TableScan × Option SlotRow
  | 0, table => (table, none)
  | fuel + 1, table =>
    match table.load relation overlays natts batchRows with
    | (table, false) => (table, none)
    | (table, true) =>
      match table.batch[table.batchIndex]? with
      | none => (table, none)
      | some row =>
        let table := { table with batchIndex := table.batchIndex + 1 }
        if keyTest row then (table, some row) else nextBatched batchRows fuel table

/-- `fastpg_mem_scan_getnextslot` for a relation of this storage, which reads
    ahead forwards only. -/
def getNextSlot (batchRows : Nat) (table : TableScan) (forward : Bool) : TableScan × Option SlotRow :=
  let table := table.turn forward
  if forward then
    nextBatched relation overlays natts keyTest batchRows (relation.scanFuel overlays) table
  else nextSingle relation overlays natts keyTest false (relation.scanFuel overlays) table

/-- One fetch for every direction. -/
def fetches (batchRows : Nat) : TableScan → List Bool → List (Option SlotRow)
  | _, [] => []
  | table, forward :: rest =>
    let (moved, row) := table.getNextSlot relation overlays natts keyTest batchRows forward
    row :: fetches batchRows moved rest

end Fetch

/-! ## Following a cursor -/

open ScanState

/-- The number of rows of the batch that were not handed out. -/
def unreadCount (table : TableScan) : Nat := table.batch.length - table.batchIndex

/-- A batch is being read: `next` is the row that comes next, and the storage
    scan stands behind the batch. -/
structure Reading (rows : List ScannedRow) (table : TableScan) (next : Nat) (there : ListCursor) :
    Prop where
  unread : table.batch.drop table.batchIndex =
    ((rows.drop next).take table.unreadCount).map ScannedRow.output
  bound : table.batchIndex ≤ table.batch.length
  inside : next + table.unreadCount ≤ rows.length
  stands : Stands rows table.scan there
  ahead : there.ahead = next + table.unreadCount
  ended : table.batchExhaustedForward = true → there = .finish rows
  full : table.batchExhaustedForward = false → table.batch ≠ [] →
    there = .on (next + table.unreadCount - 1)
  direction : table.batch ≠ [] → table.batchForward = true

/-- Between two fetches: without a batch the storage scan stands where the cursor
    stands; with one, the cursor stands on the last row that was handed out, or
    at the end. -/
def Follows (rows : List ScannedRow) (table : TableScan) (place : ListCursor) : Prop :=
  (table.batch = [] ∧ table.batchIndex = 0 ∧ Stands rows table.scan place) ∨
    ∃ next there, Reading rows table next there ∧ table.batch ≠ [] ∧ 0 < table.batchIndex ∧
      ((∃ index row, next = index + 1 ∧ rows[index]? = some row ∧ place = .on index ∧
          table.batch[table.batchIndex - 1]? = some row.output) ∨
        (place = .finish rows ∧ table.batchIndex = table.batch.length ∧
          table.batchExhaustedForward = true))

section Fetches

variable {relation : RelationStorage} {overlays : Overlays} {natts : Nat} {keyTest : SlotRow → Bool}
  {batchRows : Nat} {table : TableScan} {rows : List ScannedRow} {next : Nat} {there : ListCursor}

/-- At the end of the rows there is nothing left to hand out. -/
theorem Reading.follows_finish (reading : Reading rows table next there)
    (read : table.batch.length ≤ table.batchIndex) (ended : table.batchExhaustedForward = true) :
    Follows rows table (.finish rows) := by
  have index : table.batchIndex = table.batch.length := le_antisymm reading.bound read
  by_cases empty : table.batch = []
  · rw [empty] at index
    exact .inl ⟨empty, index, reading.ended ended ▸ reading.stands⟩
  · exact .inr ⟨next, there, reading, empty, index ▸ length_pos_iff.mpr empty,
      .inr ⟨rfl, index, ended⟩⟩

/-- A batch that was just taken. -/
theorem Reading.taken {scan : ScanState} {batch : List ScannedRow} (positive : 0 < batchRows)
    (outputs : batch.map ScannedRow.output = ((rows.drop next).take batchRows).map ScannedRow.output)
    (inside : next ≤ rows.length) (ahead : there.ahead = next)
    (stands : Stands rows scan (afterForward rows there batchRows)) :
    Reading rows
      { scan
        batch := batch.map ScannedRow.output
        batchIndex := 0
        batchForward := true
        batchExhaustedForward := decide (batch.length < batchRows)
        batchExhaustedBackward := false } next (afterForward rows there batchRows) := by
  have count : batch.length = min batchRows (rows.length - next) := by
    have lengths := congrArg List.length outputs
    simpa using lengths
  have after : afterForward rows there batchRows =
      if next + batchRows ≤ rows.length then .on (next + batchRows - 1) else .finish rows := by
    rw [afterForward, if_neg (by omega), ahead]
  constructor
  · have same : (rows.drop next).take batch.length = (rows.drop next).take batchRows := by
      rw [take_eq_take_iff, length_drop, count]
      omega
    simp only [unreadCount, length_map, drop_zero, Nat.sub_zero]
    rw [outputs, same]
  · exact Nat.zero_le _
  · simp only [unreadCount, length_map, Nat.sub_zero]
    omega
  · exact stands
  · simp only [unreadCount, length_map, Nat.sub_zero]
    rw [after]
    split
    · simp only [ListCursor.on]
      omega
    · simp only [ListCursor.finish]
      omega
  · intro short
    rw [decide_eq_true_eq] at short
    rw [after, if_neg (by omega)]
  · intro long _
    rw [decide_eq_false_iff_not] at long
    simp only [unreadCount, length_map, Nat.sub_zero]
    rw [after, if_pos (by omega)]
    congr 1
    omega
  · exact fun _ => rfl

/-- The next row of the batch is the next row of the scan. -/
theorem Reading.row (reading : Reading rows table next there)
    (some_ : table.batchIndex < table.batch.length) :
    ∃ row, rows[next]? = some row ∧ table.batch[table.batchIndex]? = some row.output := by
  have count : 0 < table.unreadCount := by
    unfold unreadCount
    omega
  have inside := reading.inside
  refine ⟨rows[next], getElem?_eq_getElem (by omega), ?_⟩
  have first := congrArg head? reading.unread
  rw [head?_drop, head?_map, head?_take, if_neg (by omega), head?_drop,
    getElem?_eq_getElem (show next < rows.length by omega)] at first
  exact first

/-- A row was handed out. -/
theorem Reading.advance (reading : Reading rows table next there)
    (some_ : table.batchIndex < table.batch.length) :
    Reading rows { table with batchIndex := table.batchIndex + 1 } (next + 1) there := by
  have count : table.unreadCount = table.batch.length - (table.batchIndex + 1) + 1 := by
    unfold unreadCount
    omega
  have left : unreadCount { table with batchIndex := table.batchIndex + 1 } + 1 = table.unreadCount :=
    count.symm
  have inside := reading.inside
  have ahead := reading.ahead
  constructor
  · have unread := reading.unread
    rw [← left, drop_eq_getElem_cons (show next < rows.length by omega), take_succ_cons,
      map_cons] at unread
    have rest := congrArg List.tail unread
    rwa [tail_drop, tail_cons] at rest
  · exact some_
  · omega
  · exact reading.stands
  · omega
  · exact reading.ended
  · intro running filled
    rw [reading.full running filled]
    congr 1
    omega
  · exact reading.direction

variable (written : Local.Written ⟨relation, overlays⟩) (sound : relation.Sound)
  (scannable : table.scan.Scannable relation overlays)
  (order : table.scan.order relation overlays natts = rows)

include written sound scannable order in
/-- A step to a row in the batch, or to the end of the rows. -/
theorem Reading.load (positive : 0 < batchRows) (reading : Reading rows table next there) :
    let loaded := table.load relation overlays natts batchRows
    SameScan table.scan loaded.1.scan ∧
      ((loaded.2 = true ∧ loaded.1.batchIndex < loaded.1.batch.length ∧
          ∃ there', Reading rows loaded.1 next there') ∨
        (loaded.2 = false ∧ rows.length ≤ next ∧ Follows rows loaded.1 (.finish rows))) := by
  unfold TableScan.load
  by_cases read : table.batch.length ≤ table.batchIndex
  · rw [if_pos read]
    have none_ : table.unreadCount = 0 := by
      unfold unreadCount
      omega
    have ahead : there.ahead = next := by rw [reading.ahead, none_, Nat.add_zero]
    cases ended : table.batchExhaustedForward with
    | true =>
      rw [if_pos rfl]
      refine ⟨.refl _, .inr ⟨rfl, ?_, reading.follows_finish read ended⟩⟩
      rw [reading.ended ended] at ahead
      exact ahead.le
    | false =>
      rw [if_neg Bool.false_ne_true]
      obtain ⟨scan', batch, taken, outputs, same, stands⟩ := scanNextBatch_stands written sound
        scannable (order ▸ reading.stands) batchRows
      rw [order, ahead] at outputs
      rw [order] at stands
      have inside : next ≤ rows.length := by
        have := reading.inside
        omega
      have fresh := Reading.taken positive outputs inside ahead stands
      have refilled : table.refill relation overlays natts batchRows =
          { scan := scan'
            batch := batch.map ScannedRow.output
            batchIndex := 0
            batchForward := true
            batchExhaustedForward := decide (batch.length < batchRows)
            batchExhaustedBackward := false } := by
        unfold refill
        rw [taken, ended]
        by_cases short : batch.length < batchRows <;> simp [short]
      dsimp only
      rw [refilled]
      refine ⟨same, ?_⟩
      by_cases empty : batch = []
      · subst empty
        have short : rows.length ≤ next := by
          have lengths := congrArg List.length outputs
          simp only [map_nil, length_nil, length_map, length_take,
            length_drop] at lengths
          omega
        exact .inr ⟨by simp, short, fresh.follows_finish le_rfl (by simpa using positive)⟩
      · have filled : 0 < batch.length := length_pos_iff.mpr empty
        exact .inl ⟨by simpa using filled, by simpa using filled, _, fresh⟩
  · rw [if_neg read]
    exact ⟨.refl _, .inl ⟨rfl, not_le.mp read, there, reading⟩⟩

include written sound scannable order in
/-- A fetch forwards out of batches is a step of the cursor. -/
theorem Reading.nextBatched (positive : 0 < batchRows) (reading : Reading rows table next there)
    (behind : Nat) {fuel : Nat} (enough : rows.length - next < fuel) :
    let fetched := nextBatched relation overlays natts keyTest batchRows fuel table
    let moved := ListCursor.next rows (fun row => keyTest row.output) true ⟨next, behind⟩
    SameScan table.scan fetched.1.scan ∧ fetched.2 = moved.2.map ScannedRow.output ∧
      Follows rows fetched.1 moved.1 := by
  induction fuel generalizing table next there behind with
  | zero => omega
  | succ fuel ih =>
    have loads := reading.load written sound scannable order positive
    unfold TableScan.nextBatched
    generalize table.load relation overlays natts batchRows = loaded at loads ⊢
    obtain ⟨loaded, more⟩ := loaded
    obtain ⟨same, ⟨rfl, some_, there', reading'⟩ | ⟨rfl, past, follows⟩⟩ := loads
    · obtain ⟨row, here, taken⟩ := reading'.row some_
      have bound := (List.getElem?_eq_some_iff.mp here).1
      dsimp only at taken ⊢
      rw [taken]
      dsimp only
      cases wanted : keyTest row.output with
      | true =>
        have moved : ListCursor.next rows (fun row => keyTest row.output) true ⟨next, behind⟩ =
            (.on next, some row) := ListCursor.next_forward_found here wanted
        rw [moved, if_pos rfl]
        refine ⟨same, rfl, .inr ⟨next + 1, there', reading'.advance some_, ?_, Nat.succ_pos _,
          .inl ⟨next, row, rfl, here, rfl, taken⟩⟩⟩
        exact ne_nil_of_length_pos (Nat.zero_lt_of_lt some_)
      | false =>
        have moved : ListCursor.next rows (fun row => keyTest row.output) true ⟨next, behind⟩ =
            ListCursor.next rows (fun row => keyTest row.output) true (.on next) :=
          ListCursor.next_forward_skip here wanted
        rw [moved, if_neg Bool.false_ne_true]
        obtain ⟨same', answer, follows⟩ := @ih
          { loaded with batchIndex := loaded.batchIndex + 1 } (next + 1) there'
          (same.scannable scannable) (same.order.trans order) (reading'.advance some_) next (by omega)
        exact ⟨same.trans same', answer, follows⟩
    · rw [ListCursor.next_forward_end past]
      exact ⟨same, rfl, follows⟩

include written sound scannable order in
/-- A fetch backwards, row by row, is a step of the cursor. -/
theorem nextSingle_stands {place : ListCursor} (stands : Stands rows table.scan place) {fuel : Nat}
    (enough : place.behind < fuel) :
    let fetched := nextSingle relation overlays natts keyTest false fuel table
    let moved := ListCursor.next rows (fun row => keyTest row.output) false place
    SameScan table.scan fetched.1.scan ∧ fetched.2 = moved.2.map ScannedRow.output ∧
      fetched.1 = { table with scan := fetched.1.scan } ∧ Stands rows fetched.1.scan moved.1 := by
  induction fuel generalizing table place with
  | zero => omega
  | succ fuel ih =>
    obtain ⟨scan', stepped, same, stands'⟩ := scanNext_stands written sound scannable
      (order ▸ stands) false
    rw [order] at stepped stands'
    unfold nextSingle
    rw [stepped]
    cases behind : place.behind with
    | zero =>
      rw [ListCursor.next_backward_end behind] at stands' ⊢
      rw [ListCursor.next_backward_end behind]
      exact ⟨same, rfl, rfl, stands'⟩
    | succ index =>
      have inside := stands.inside.2
      have here : rows[index]? = some rows[index] := getElem?_eq_getElem (by omega)
      rw [ListCursor.next_backward_found behind here rfl] at stands' ⊢
      dsimp only [map_some]
      rw [reported_output]
      cases wanted : keyTest rows[index].output with
      | true =>
        have moved : ListCursor.next rows (fun row => keyTest row.output) false place =
            (.on index, some rows[index]) := ListCursor.next_backward_found behind here wanted
        rw [moved, if_pos rfl]
        exact ⟨same, rfl, rfl, stands'⟩
      | false =>
        have moved : ListCursor.next rows (fun row => keyTest row.output) false place =
            ListCursor.next rows (fun row => keyTest row.output) false (.on index) :=
          ListCursor.next_backward_skip behind here wanted
        rw [moved, if_neg Bool.false_ne_true]
        obtain ⟨same', answer, kept, last⟩ := @ih { table with scan := scan' }
          (same.scannable scannable) (same.order.trans order) (.on index) stands'
          (by simp only [ListCursor.on]; omega)
        exact ⟨same.trans same', answer, kept, last⟩

/-- A fetch that the read-ahead does not disturb. Forwards, a scan without a
    batch whose last batch was short is at its end. Backwards, from the middle of
    a batch the tid of the last row leads back to its place, and from the end of
    a short batch the cursor has passed the last row. -/
def Honours (rows : List ScannedRow) (table : TableScan) (place : ListCursor) (forward : Bool) : Prop :=
  if forward then table.batch = [] → table.batchExhaustedForward = true → place = .finish rows
  else table.batch ≠ [] →
    if table.batchIndex < table.batch.length then ∀ row ∈ rows[place.behind]?, Stands.Placed rows row
    else table.batchExhaustedForward = true → place = .finish rows

instance (rows : List ScannedRow) (table : TableScan) (place : ListCursor) (forward : Bool) :
    Decidable (Honours rows table place forward) :=
  inferInstanceAs (Decidable (ite _ _ _))

/-- A storage scan without a batch. -/
theorem Follows.reading {place : ListCursor} (empty : table.batch = []) (index : table.batchIndex = 0)
    (stands : Stands rows table.scan place)
    (ended : table.batchExhaustedForward = true → place = .finish rows) :
    Reading rows table place.ahead place := by
  have none_ : table.unreadCount = 0 := by simp [unreadCount, empty]
  constructor
  · simp [empty, none_]
  · omega
  · rw [none_]
    exact stands.inside.1
  · exact stands
  · rw [none_, Nat.add_zero]
  · exact ended
  · exact fun _ filled => absurd empty filled
  · exact fun filled => absurd empty filled

/-- A fetch forwards keeps the batch. -/
theorem Follows.turn_forward {place : ListCursor} (follows : Follows rows table place) :
    table.turn true = table := by
  refine if_neg fun ⟨filled, other⟩ => ?_
  rcases follows with ⟨empty, -⟩ | ⟨next, there, reading, some_, -⟩
  · simp [empty] at filled
  · exact other (reading.direction some_)

include order scannable written in
/-- A turn backwards leaves the storage scan behind the rows that the cursor has
    behind it. -/
theorem Follows.turn_backward {place : ListCursor} (follows : Follows rows table place)
    (honours : Honours rows table place false) :
    (table.turn false).batch = [] ∧ (table.turn false).batchIndex = 0 ∧
      SameScan table.scan (table.turn false).scan ∧
      ∃ ahead, Stands rows (table.turn false).scan ⟨ahead, place.behind⟩ := by
  rcases follows with ⟨empty, index, stands⟩ | ⟨next, there, reading, some_, started, last⟩
  · have same : table.turn false = table := if_neg fun ⟨filled, _⟩ => by simp [empty] at filled
    rw [same]
    exact ⟨empty, index, .refl _, place.ahead, stands⟩
  · have turned : table.batch.length > 0 ∧ table.batchForward ≠ false :=
      ⟨length_pos_iff.mpr some_, by simp [reading.direction some_]⟩
    have honours := honours some_
    by_cases middle : table.batchIndex < table.batch.length
    · -- the batch is left in the middle: the storage scan is moved
      rw [if_pos middle] at honours
      obtain ⟨index, row, -, here, rfl, taken⟩ | ⟨-, whole, -⟩ := last
      · have mem : row ∈ table.scan.order relation overlays natts :=
          order ▸ mem_of_getElem? here
        obtain ⟨ahead, stands⟩ := Stands.scanSetPosition (order ▸ order_sorted)
          (fun row mem => order_numbered scannable (order ▸ mem)) here
          (order_within scannable mem) (order_line written mem) (honours row here)
        have moved : table.turn false =
            ({ table with scan := table.scan.scanSetPosition row.tid } : TableScan).discardBatch.resetBatchExhaustion := by
          rw [turn, if_pos turned, if_pos ⟨middle, started⟩, taken]
          rfl
        rw [moved]
        refine ⟨rfl, rfl, ?_, ahead, stands⟩
        change SameScan table.scan (table.scan.scanSetPosition row.tid)
        unfold ScanState.scanSetPosition
        split
        · exact .refl _
        · exact ⟨rfl, rfl, rfl, rfl⟩
      · omega
  -- the batch was read to its end: the storage scan stays
    · rw [if_neg middle] at honours
      have left : table.turn false = table.discardBatch.resetBatchExhaustion := by
        rw [turn, if_pos turned, if_neg fun open_ => middle open_.1]
      have none_ : table.unreadCount = 0 := by
        unfold unreadCount
        omega
      have same : there = place := by
        cases ended : table.batchExhaustedForward with
        | true => rw [reading.ended ended, honours ended]
        | false =>
          obtain ⟨index, row, rfl, -, rfl, -⟩ | ⟨-, -, short⟩ := last
          · rw [reading.full ended some_, none_]
            rfl
          · rw [ended] at short
            cases short
      rw [left]
      exact ⟨rfl, rfl, .refl _, place.ahead, same ▸ reading.stands⟩

include written sound scannable order in
/-- A fetch is a step of the cursor over the rows of the scan. -/
theorem Follows.getNextSlot {place : ListCursor} {forward : Bool} (positive : 0 < batchRows)
    (follows : Follows rows table place) (honours : Honours rows table place forward) :
    let fetched := table.getNextSlot relation overlays natts keyTest batchRows forward
    let moved := place.next rows (fun row => keyTest row.output) forward
    SameScan table.scan fetched.1.scan ∧ fetched.2 = moved.2.map ScannedRow.output ∧
      Follows rows fetched.1 moved.1 := by
  have fuel : rows.length < relation.scanFuel overlays := order ▸ length_order
  unfold TableScan.getNextSlot
  cases forward with
  | true =>
    rw [follows.turn_forward]
    dsimp only
    rw [if_pos rfl]
    rcases follows with ⟨empty, index, stands⟩ | ⟨next, there, reading, some_, started, last⟩
    · exact (Follows.reading empty index stands (honours empty)).nextBatched written sound scannable
        order positive place.behind (by omega)
    · obtain ⟨index, row, rfl, -, rfl, -⟩ | ⟨rfl, whole, ended⟩ := last
      · exact reading.nextBatched written sound scannable order positive index (by omega)
      · have ahead := reading.ahead
        have none_ : table.unreadCount = 0 := by
          unfold unreadCount
          omega
        rw [reading.ended ended, none_, Nat.add_zero] at ahead
        subst ahead
        exact reading.nextBatched written sound scannable order positive rows.length (by omega)
  | false =>
    obtain ⟨empty, index, same, ahead, stands⟩ :=
      follows.turn_backward written scannable order honours
    have inside := stands.inside.2
    obtain ⟨same', answer, kept, stands'⟩ := nextSingle_stands written sound (same.scannable scannable)
      (same.order.trans order) stands (show place.behind < relation.scanFuel overlays by
        dsimp only at inside
        omega)
    rw [ListCursor.next_backward_congr (show (⟨ahead, place.behind⟩ : ListCursor).behind = place.behind
      from rfl)] at answer stands'
    dsimp only
    rw [if_neg Bool.false_ne_true]
    refine ⟨same.trans same', answer, .inl ⟨?_, ?_, stands'⟩⟩
    · rw [kept]
      exact empty
    · rw [kept]
      exact index

end Fetches

/-! ## Runs of fetches -/

section Runs

variable (relation : RelationStorage) (overlays : Overlays) (natts : Nat) (keyTest : SlotRow → Bool)
  (batchRows : Nat)

/-- Every fetch of the run is one that the read-ahead does not disturb. -/
def Admitted (rows : List ScannedRow) : TableScan → ListCursor → List Bool → Prop
  | _, _, [] => True
  | table, place, forward :: rest =>
    Honours rows table place forward ∧
      Admitted rows (table.getNextSlot relation overlays natts keyTest batchRows forward).1
        (place.next rows (fun row => keyTest row.output) forward).1 rest

instance Admitted.decide (rows : List ScannedRow) : (table : TableScan) → (place : ListCursor) →
    (directions : List Bool) →
    Decidable (Admitted relation overlays natts keyTest batchRows rows table place directions)
  | _, _, [] => inferInstanceAs (Decidable True)
  | table, place, forward :: rest =>
    have := Admitted.decide rows
      (table.getNextSlot relation overlays natts keyTest batchRows forward).1
      (place.next rows (fun row => keyTest row.output) forward).1 rest
    inferInstanceAs (Decidable (Honours rows table place forward ∧
      Admitted relation overlays natts keyTest batchRows rows
        (table.getNextSlot relation overlays natts keyTest batchRows forward).1
        (place.next rows (fun row => keyTest row.output) forward).1 rest))

end Runs

section Run

variable {relation : RelationStorage} {overlays : Overlays} {natts : Nat} {keyTest : SlotRow → Bool}
  {batchRows : Nat} {table : TableScan} {rows : List ScannedRow} {place : ListCursor}
  {directions : List Bool}

/-- The fetches of a run return the rows that a cursor over the scan returns. -/
theorem Follows.fetches (written : Local.Written ⟨relation, overlays⟩) (sound : relation.Sound)
    (scannable : table.scan.Scannable relation overlays)
    (order : table.scan.order relation overlays natts = rows) (positive : 0 < batchRows)
    (follows : Follows rows table place)
    (admitted : Admitted relation overlays natts keyTest batchRows rows table place directions) :
    table.fetches relation overlays natts keyTest batchRows directions =
      (place.fetches rows (fun row => keyTest row.output) directions).map
        (Option.map ScannedRow.output) := by
  induction directions generalizing table place with
  | nil => rfl
  | cons forward rest ih =>
    obtain ⟨honours, later⟩ := admitted
    obtain ⟨same, answer, next⟩ := follows.getNextSlot written sound scannable order positive honours
    simp only [TableScan.fetches, ListCursor.fetches, map_cons]
    rw [answer, ih (same.scannable scannable) (same.order.trans order) next later]

end Run

end TableScan

namespace Engine

/-- The table access method returns, for every run of fetches in either direction
    that the read-ahead does not disturb, the rows of a cursor over the scan. -/
theorem prefetch_honours_directions {catalog : Catalog} {engine : Engine}
    (reached : Reaches (Engine.step catalog) Respects .initial engine) (relid : Relid)
    (sid : SessionId) (curcid : Option Nat) (natts batchRows : Nat) (keyTest : SlotRow → Bool)
    (directions : List Bool) (positive : 0 < batchRows) :
    let relation := engine.storage.relations relid
    let overlays := engine.storage.overlays sid relid
    let scan := ScanState.scanBegin relation overlays (engine.rowCounts relid) curcid
    let rows := scan.order relation overlays natts
    let table := TableScan.scanBegin scan
    (scan.overlayOnly = true → overlays.Ascending) →
    TableScan.Admitted relation overlays natts keyTest batchRows rows table (.start rows) directions →
    table.fetches relation overlays natts keyTest batchRows directions =
      ((ListCursor.start rows).fetches rows (fun row => keyTest row.output) directions).map
        (Option.map ScannedRow.output) := by
  intro relation overlays scan rows table ascending admitted
  have written : Local.Written ⟨relation, overlays⟩ := reaches_written reached relid sid
  have numbered : Local.Numbered ⟨relation, overlays⟩ := reaches_numbered reached relid sid
  have sound : relation.Sound := ((reaches_kept reached).shared relid).levels sid |>.sound
  have scannable : scan.Scannable relation overlays :=
    ScanState.scanBegin_scannable numbered sound fun _ => ascending
  have follows : TableScan.Follows rows table (.start rows) := by
    refine .inl ⟨rfl, rfl, ?_⟩
    obtain ⟨highWater, only, opens, -⟩ :=
      @ScanState.scanBegin_fields relation overlays (engine.rowCounts relid) curcid
    have within : ∀ row ∈ rows, row.cursorTid.block < scan.highWater.length :=
      fun row member => ScanState.order_within scannable member
    have stood := @ScanState.opened_stands scan.highWater overlays.hasVisibilityDeltas only curcid rows
      (fun row member => ScanState.order_numbered scannable member) within
    have same : scan = ScanState.opened scan.highWater overlays.hasVisibilityDeltas only curcid := by
      change ScanState.scanBegin relation overlays (engine.rowCounts relid) curcid =
        ScanState.opened (ScanState.scanBegin relation overlays (engine.rowCounts relid) curcid).highWater
          _ _ _
      rw [opens]
      rfl
    rw [← same] at stood
    exact stood
  exact follows.fetches written sound scannable rfl positive admitted

/-- Three committed rows, the first of them under a HOT update. -/
def updatedFirst : List Request :=
  let row : Request := ⟨1, .call (.insert 7 [] .skip none false)⟩
  [row, row, row, ⟨1, .call .xactCommit⟩, ⟨1, .call .xactBegin⟩,
    ⟨1, .call (.update 7 ⟨0, 1⟩ [] .skip true none)⟩]

theorem prefetch_honours_directions_updatedFirst : ∃ engine,
    run (step bareCatalog) .initial updatedFirst = some engine ∧
      let relation := engine.storage.relations 7
      let overlays := engine.storage.overlays 1 7
      let scan := ScanState.scanBegin relation overlays (engine.rowCounts 7) none
      let rows := scan.order relation overlays 0
      let directions := [true, true, false, true, true, true, false]
      (TableScan.scanBegin scan).fetches relation overlays 0 (fun _ => true) 2 directions =
        ((ListCursor.start rows).fetches rows (fun _ => true) directions).map
          (Option.map ScannedRow.output) := by
  obtain ⟨engine, ran⟩ : ∃ engine, run (step bareCatalog) .initial updatedFirst = some engine :=
    ⟨_, rfl⟩
  have reached := reaches_of_checked [1] (by decide) ran
  refine ⟨engine, ran, prefetch_honours_directions reached 7 1 none 0 2 (fun _ => true)
    [true, true, false, true, true, true, false] (by decide) (fun only => ?_) ?_⟩
  · have shared : (ScanState.scanBegin (engine.storage.relations 7) (engine.storage.overlays 1 7)
        (engine.rowCounts 7) none).overlayOnly = false := by
      cases ran
      decide +kernel
    rw [shared] at only
    cases only
  · cases ran
    decide +kernel

/-- A turn in the middle of a batch goes back from the new version of the first
    row, to the last row, and not before the first one. -/
theorem prefetch_turns_to_version : ∃ engine,
    Reaches (Engine.step bareCatalog) Respects .initial engine ∧
      run (step bareCatalog) .initial updatedFirst = some engine ∧
      let relation := engine.storage.relations 7
      let overlays := engine.storage.overlays 1 7
      let scan := ScanState.scanBegin relation overlays (engine.rowCounts 7) none
      let rows := scan.order relation overlays 0
      rows.map (fun row => (row.cursorTid, row.tid)) =
          [(⟨0, 1⟩, ⟨0, 4⟩), (⟨0, 2⟩, ⟨0, 2⟩), (⟨0, 3⟩, ⟨0, 3⟩)] ∧
        ((TableScan.scanBegin scan).fetches relation overlays 0 (fun _ => true) scanBatchRows
          [true, false]).map (Option.map Prod.fst) = [some ⟨0, 4⟩, some ⟨0, 3⟩] ∧
        ((ListCursor.start rows).fetches rows (fun _ => true) [true, false]).map
          (Option.map ScannedRow.tid) = [some ⟨0, 4⟩, none] := by
  obtain ⟨engine, ran⟩ : ∃ engine, run (step bareCatalog) .initial updatedFirst = some engine :=
    ⟨_, rfl⟩
  have reached := reaches_of_checked [1] (by decide) ran
  refine ⟨engine, reached, ran, ?_⟩
  cases ran
  decide +kernel

end Engine

end FastPg.Storage
