import FastPg.Lib.OrdSet
import FastPg.Lib.Assoc
import Mathlib.Data.List.Basic
import Mathlib.Data.List.GetD
import Mathlib.Tactic.Ring

/-! # Tuple identifiers and pages

A page is a byte area with a list of line pointers. Tuples are appended at the
next aligned position, so the ranges of the line pointers never overlap and the
bytes of a tuple stay what they were when it was appended. The counters follow
the state of every line pointer; the epoch and generation stamps of a page are
read by nothing but memory accounting and are left out.
-/

namespace FastPg.Storage

open List

/-- Stored tuple bytes. -/
abbrev Bytes := List UInt8

def pageSize : Nat := 8192

def maxCtidOffset : Nat := 2047

def datumAlignment : Nat := 8

/-- A block number with a one-based offset. -/
structure Tid where
  block : Nat
  offset : Nat
  deriving DecidableEq, Repr, Inhabited

namespace Tid

instance : LT Tid := ⟨fun a b => a.block < b.block ∨ a.block = b.block ∧ a.offset < b.offset⟩

instance : LE Tid := ⟨fun a b => a.block < b.block ∨ a.block = b.block ∧ a.offset ≤ b.offset⟩

theorem lt_def {a b : Tid} :
    a < b ↔ a.block < b.block ∨ a.block = b.block ∧ a.offset < b.offset := Iff.rfl

theorem le_def {a b : Tid} :
    a ≤ b ↔ a.block < b.block ∨ a.block = b.block ∧ a.offset ≤ b.offset := Iff.rfl

instance (a b : Tid) : Decidable (a < b) :=
  inferInstanceAs (Decidable (a.block < b.block ∨ a.block = b.block ∧ a.offset < b.offset))

instance (a b : Tid) : Decidable (a ≤ b) :=
  inferInstanceAs (Decidable (a.block < b.block ∨ a.block = b.block ∧ a.offset ≤ b.offset))

theorem ext_iff' {a b : Tid} : a = b ↔ a.block = b.block ∧ a.offset = b.offset := by
  cases a
  cases b
  simp

/-- Tids are ordered by block, then by offset. -/
instance : LinearOrder Tid where
  le_refl a := by rw [le_def]; omega
  le_trans a b c := by simp only [le_def]; omega
  lt_iff_le_not_ge a b := by simp only [le_def, lt_def]; omega
  le_antisymm a b := by simp only [le_def, ext_iff']; omega
  le_total a b := by simp only [le_def]; omega
  toDecidableLE := inferInstance
  toDecidableEq := inferInstance
  toDecidableLT := inferInstance

end Tid

inductive LinePointerState where
  | pending
  | live
  | dead
  deriving DecidableEq, Repr

structure LinePointer where
  offset : Nat
  len : Nat
  state : LinePointerState
  xmin : Nat
  cmin : Nat
  xmax : Nat
  deriving DecidableEq, Repr

/-- A page whose line pointers stay inside the used part of its byte area. -/
structure Page where
  block : Nat
  capacity : Nat
  bytes : Nat → UInt8
  used : Nat
  linePointers : List LinePointer
  pendingTupleBytes : Nat
  liveTupleBytes : Nat
  deadTupleBytes : Nat
  usedLe : used ≤ capacity
  within : ∀ line ∈ linePointers, line.offset + line.len ≤ used

/-- What `checkpoint` remembers of a page. The list of line states it could
    carry is always empty, so only the counts are kept. -/
structure PageCheckpoint where
  used : Nat
  lineCount : Nat
  pendingTupleBytes : Nat
  liveTupleBytes : Nat
  deadTupleBytes : Nat
  deriving DecidableEq, Repr

/-- Smallest power of two that is at least `n`. -/
def nextPowerOfTwo (n : Nat) : Nat := if n ≤ 1 then 1 else 2 ^ (Nat.log2 (n - 1) + 1)

namespace Page

/-- `new`: an empty page that holds at least `minCapacity` bytes. -/
def new (block minCapacity : Nat) : Page where
  block := block
  capacity := max pageSize (nextPowerOfTwo minCapacity)
  bytes := fun _ => 0
  used := 0
  linePointers := []
  pendingTupleBytes := 0
  liveTupleBytes := 0
  deadTupleBytes := 0
  usedLe := Nat.zero_le _
  within := by simp

def alignedUsed (page : Page) : Nat :=
  (page.used + (datumAlignment - 1)) / datumAlignment * datumAlignment

def remaining (page : Page) : Nat := page.capacity - page.alignedUsed

def canFit (page : Page) (tupleLen : Nat) : Bool :=
  tupleLen ≤ page.remaining && page.linePointers.length < maxCtidOffset

/-- Copy a tuple into the byte area from `start` on. -/
def copyBytes (bytes : Nat → UInt8) (start : Nat) (tuple : Bytes) : Nat → UInt8 :=
  fun i => if start ≤ i then (tuple[i - start]?).getD (bytes i) else bytes i

/-- `len` bytes from `start` on. -/
def readBytes (bytes : Nat → UInt8) (start len : Nat) : Bytes :=
  (List.range len).map fun i => bytes (start + i)

theorem used_le_alignedUsed (page : Page) : page.used ≤ page.alignedUsed := by
  simp only [alignedUsed, datumAlignment]
  omega

def addState (state : LinePointerState) (len : Nat) (page : Page) : Page :=
  match state with
  | .pending => { page with pendingTupleBytes := page.pendingTupleBytes + len }
  | .live => { page with liveTupleBytes := page.liveTupleBytes + len }
  | .dead => { page with deadTupleBytes := page.deadTupleBytes + len }

def subState (state : LinePointerState) (len : Nat) (page : Page) : Page :=
  match state with
  | .pending => { page with pendingTupleBytes := page.pendingTupleBytes - len }
  | .live => { page with liveTupleBytes := page.liveTupleBytes - len }
  | .dead => page

/-- The byte area and high-water mark after a tuple was written at the next
    aligned position. -/
def fill (page : Page) (tuple : Bytes) (fits : page.alignedUsed + tuple.length ≤ page.capacity) :
    Page :=
  { page with
    bytes := copyBytes page.bytes page.alignedUsed tuple
    used := page.alignedUsed + tuple.length
    usedLe := fits
    within := fun line member =>
      (page.within line member).trans (by have := page.used_le_alignedUsed; omega) }

theorem fill_used (page : Page) (tuple : Bytes)
    (fits : page.alignedUsed + tuple.length ≤ page.capacity) :
    (page.fill tuple fits).used = page.alignedUsed + tuple.length := rfl

/-- Push the line pointer of a tuple that ends at the high-water mark. -/
def pushLine (page : Page) (line : LinePointer) (inside : line.offset + line.len ≤ page.used) :
    Page :=
  { page with
    linePointers := page.linePointers ++ [line]
    within := by
      intro other member
      rcases List.mem_append.mp member with member | member
      · exact page.within other member
      · rw [List.mem_singleton] at member
        exact member ▸ inside }

/-- `append_tuple_with_state`: the new tid, or `none` where the tuple does not
    fit. A position or length beyond 32 bits is refused only after the bytes
    were written, so the page then keeps the raised high-water mark. -/
def appendTupleWithState (page : Page) (tuple : Bytes) (state : LinePointerState) :
    Page × Option Tid :=
  if page.remaining < tuple.length ∨ maxCtidOffset ≤ page.linePointers.length then (page, none)
  else if fits : page.alignedUsed + tuple.length ≤ page.capacity then
    let filled := page.fill tuple fits
    if page.alignedUsed < 2 ^ 32 ∧ tuple.length < 2 ^ 32 then
      let line : LinePointer := ⟨page.alignedUsed, tuple.length, state, 0, 0, 0⟩
      let pushed := filled.pushLine line (page.fill_used tuple fits).ge
      (addState state tuple.length pushed, some ⟨page.block, pushed.linePointers.length⟩)
    else (filled, none)
  else (page, none)

/-- The line pointer at a one-based offset. -/
def line (page : Page) (offset : Nat) : Option LinePointer :=
  if offset = 0 then none else page.linePointers[offset - 1]?

def tupleSlice (page : Page) (offset : Nat) (includePending : Bool) : Option Bytes := do
  let line ← page.line offset
  if line.state = .dead ∨ (line.state = .pending ∧ includePending = false) then none
  else if line.offset + line.len ≤ page.capacity then
    some (readBytes page.bytes line.offset line.len)
  else none

/-- Change one line pointer without moving its byte range. -/
def modifyLine (page : Page) (offset : Nat) (f : LinePointer → LinePointer)
    (keeps : ∀ line, (f line).offset = line.offset ∧ (f line).len = line.len) : Page :=
  { page with
    linePointers := page.linePointers.modify (offset - 1) f
    within := by
      intro line member
      obtain ⟨i, inside, rfl⟩ := List.mem_iff_getElem.mp member
      rw [List.getElem_modify]
      have old := page.within _ (List.getElem_mem (by simpa using inside))
      split
      · rw [(keeps _).1, (keeps _).2]
        exact old
      · exact old }

def withState (state : LinePointerState) (line : LinePointer) : LinePointer :=
  { line with state := state }

/-- `mark_dead`: whether a line pointer changed, with the page after it. -/
def markDead (page : Page) (offset : Nat) : Page × Bool :=
  match page.line offset with
  | none => (page, false)
  | some line =>
    if line.state = .dead then (page, false)
    else
      let dead := page.modifyLine offset (withState .dead) fun _ => ⟨rfl, rfl⟩
      (addState .dead line.len (subState line.state line.len dead), true)

def markLive (page : Page) (offset : Nat) : Page × Bool :=
  match page.line offset with
  | none => (page, false)
  | some line =>
    if line.state ≠ .pending then (page, false)
    else
      let live := page.modifyLine offset (withState .live) fun _ => ⟨rfl, rfl⟩
      (addState .live line.len (subState .pending line.len live), true)

def withInsert (xmin cmin : Nat) (line : LinePointer) : LinePointer :=
  { line with xmin := xmin, cmin := cmin }

def withXmax (xmax : Nat) (line : LinePointer) : LinePointer :=
  { line with xmax := xmax }

def setInsertMetadata (page : Page) (offset xmin cmin : Nat) : Page :=
  page.modifyLine offset (withInsert xmin cmin) fun _ => ⟨rfl, rfl⟩

def setRowXmax (page : Page) (offset xmax : Nat) : Page :=
  page.modifyLine offset (withXmax xmax) fun _ => ⟨rfl, rfl⟩

def checkpoint (page : Page) : PageCheckpoint :=
  ⟨page.used, page.linePointers.length, page.pendingTupleBytes, page.liveTupleBytes,
    page.deadTupleBytes⟩

/-- Total length of the line pointers in one state. -/
def stateBytes (lines : List LinePointer) (state : LinePointerState) : Nat :=
  ((lines.filter fun line => line.state = state).map LinePointer.len).sum

def recomputeTupleBytes (page : Page) : Page :=
  { page with
    pendingTupleBytes := stateBytes page.linePointers .pending
    liveTupleBytes := stateBytes page.linePointers .live
    deadTupleBytes := stateBytes page.linePointers .dead }

/-- `restore_to_preserving_tid_space`: every line pointer past the checkpoint
    dies; no offset is given back. -/
def restoreToPreservingTidSpace (page : Page) (checkpoint : PageCheckpoint) : Page :=
  let count := min checkpoint.lineCount page.linePointers.length
  recomputeTupleBytes
    { page with
      linePointers := page.linePointers.take count ++
        (page.linePointers.drop count).map (withState .dead)
      within := by
        intro line member
        rcases List.mem_append.mp member with member | member
        · exact page.within line (List.mem_of_mem_take member)
        · obtain ⟨old, oldMember, rfl⟩ := List.mem_map.mp member
          exact page.within old (List.mem_of_mem_drop oldMember) }

/-! ## What a page stores at an offset

`row` forgets positions and stamps: it is the state and the bytes at an offset,
and every page operation is described by what it does to `row`.
-/

def row (page : Page) (offset : Nat) : Option (LinePointerState × Bytes) :=
  (page.line offset).map fun line => (line.state, readBytes page.bytes line.offset line.len)

variable {page : Page} {offset : Nat} {line : LinePointer}

/-- Lines are numbered from one. -/
theorem offset_pos_of_row (found : (page.row offset).isSome) :
    0 < offset := by
  refine Nat.pos_of_ne_zero fun zero => ?_
  simp [row, line, zero] at found

/-- Whether a row in `state` may be read, own pending rows included or not. -/
def readable (includePending : Bool) : LinePointerState → Bool
  | .live => true
  | .pending => includePending
  | .dead => false

theorem line_mem (found : page.line offset = some line) : line ∈ page.linePointers := by
  unfold Page.line at found
  split at found
  · cases found
  · exact mem_of_getElem? found

theorem line_fits (found : page.line offset = some line) : line.offset + line.len ≤ page.capacity :=
  (page.within line (line_mem found)).trans page.usedLe

theorem tupleSlice_eq (page : Page) (offset : Nat) (includePending : Bool) :
    page.tupleSlice offset includePending =
      (page.row offset).bind fun row => if readable includePending row.1 then some row.2 else none := by
  unfold tupleSlice row
  cases found : page.line offset with
  | none => rfl
  | some line =>
    cases state : line.state <;> cases includePending <;>
      simp [readable, state, line_fits found]

theorem row_isSome_iff :
    (page.row offset).isSome ↔ 1 ≤ offset ∧ offset ≤ page.linePointers.length := by
  unfold row Page.line
  by_cases zero : offset = 0
  · simp [zero]
  · simp only [zero, if_false, Option.isSome_map, isSome_getElem?]
    omega

theorem row_eq_none_iff :
    page.row offset = none ↔ offset = 0 ∨ page.linePointers.length < offset := by
  rw [← Option.not_isSome_iff_eq_none, row_isSome_iff]
  omega

@[simp] theorem row_new (block minCapacity offset : Nat) : (new block minCapacity).row offset = none := by
  simp [row, Page.line, new]

@[simp] theorem new_block (block minCapacity : Nat) : (new block minCapacity).block = block := rfl

@[simp] theorem new_linePointers (block minCapacity : Nat) :
    (new block minCapacity).linePointers = [] := rfl

@[simp] theorem addState_block (state : LinePointerState) (len : Nat) (page : Page) :
    (addState state len page).block = page.block := by
  cases state <;> rfl

@[simp] theorem subState_block (state : LinePointerState) (len : Nat) (page : Page) :
    (subState state len page).block = page.block := by
  cases state <;> rfl

@[simp] theorem addState_linePointers (state : LinePointerState) (len : Nat) (page : Page) :
    (addState state len page).linePointers = page.linePointers := by
  cases state <;> rfl

@[simp] theorem subState_linePointers (state : LinePointerState) (len : Nat) (page : Page) :
    (subState state len page).linePointers = page.linePointers := by
  cases state <;> rfl

@[simp] theorem addState_row (state : LinePointerState) (len : Nat) (page : Page) (offset : Nat) :
    (addState state len page).row offset = page.row offset := by
  cases state <;> rfl

@[simp] theorem subState_row (state : LinePointerState) (len : Nat) (page : Page) (offset : Nat) :
    (subState state len page).row offset = page.row offset := by
  cases state <;> rfl

theorem readBytes_copyBytes_self (bytes : Nat → UInt8) (start : Nat) (tuple : Bytes) :
    readBytes (copyBytes bytes start tuple) start tuple.length = tuple := by
  apply ext_getElem
  · simp [readBytes]
  · intro i _ inside
    simp [readBytes, copyBytes, inside]

theorem readBytes_copyBytes_before (bytes : Nat → UInt8) (start : Nat) (tuple : Bytes)
    (from_ len : Nat) (before : from_ + len ≤ start) :
    readBytes (copyBytes bytes start tuple) from_ len = readBytes bytes from_ len := by
  unfold readBytes
  apply map_congr_left
  intro i inside
  have := mem_range.mp inside
  have below : ¬ start ≤ from_ + i := by omega
  simp [copyBytes, below]

/-- The bytes of earlier tuples end before the position the next one takes. -/
theorem row_fill (page : Page) (tuple : Bytes)
    (fits : page.alignedUsed + tuple.length ≤ page.capacity) (offset : Nat) :
    (page.fill tuple fits).row offset = page.row offset := by
  have sameLine : (page.fill tuple fits).line offset = page.line offset := rfl
  unfold row
  rw [sameLine]
  cases found : page.line offset with
  | none => rfl
  | some line =>
    have before : line.offset + line.len ≤ page.alignedUsed :=
      (page.within line (line_mem found)).trans page.used_le_alignedUsed
    simp only [Option.map_some, fill, Option.some.injEq, Prod.mk.injEq, true_and]
    exact readBytes_copyBytes_before _ _ _ _ _ before

theorem row_pushLine (page : Page) (line : LinePointer)
    (inside : line.offset + line.len ≤ page.used) (offset : Nat) :
    (page.pushLine line inside).row offset =
      if offset = page.linePointers.length + 1 then
        some (line.state, readBytes page.bytes line.offset line.len)
      else page.row offset := by
  unfold row Page.line
  by_cases zero : offset = 0
  · simp [zero]
  · by_cases last : offset = page.linePointers.length + 1
    · simp [last, pushLine]
    · by_cases below : offset - 1 < page.linePointers.length
      · simp [zero, last, pushLine, getElem?_append_left below]
      · have beyond : page.linePointers.length + 1 ≤ offset - 1 := by omega
        simp only [zero, if_false, pushLine, last]
        rw [getElem?_eq_none (by simpa using beyond), getElem?_eq_none (by omega)]

/-- One spec for appending: either nothing a reader can see changes, or the
    tuple is the new last row. -/
theorem appendTupleWithState_spec {page' : Page} {tuple : Bytes} {state : LinePointerState}
    {result : Option Tid} (h : page.appendTupleWithState tuple state = (page', result)) :
    page'.block = page.block ∧
      ((result = none ∧ page'.linePointers = page.linePointers ∧
          ∀ offset, page'.row offset = page.row offset) ∨
        (result = some ⟨page.block, page.linePointers.length + 1⟩ ∧
          page'.linePointers.length = page.linePointers.length + 1 ∧
          page.linePointers.length < maxCtidOffset ∧
          ∀ offset, page'.row offset =
            if offset = page.linePointers.length + 1 then some (state, tuple)
            else page.row offset)) := by
  unfold appendTupleWithState at h
  split at h
  · cases h
    exact ⟨rfl, .inl ⟨rfl, rfl, fun _ => rfl⟩⟩
  · rename_i room
    split at h
    · rename_i fits
      dsimp only at h
      split at h
      · cases h
        refine ⟨by simp [pushLine, fill], .inr ⟨by simp [pushLine, fill], by simp [pushLine, fill],
          by omega, ?_⟩⟩
        intro offset
        rw [addState_row, row_pushLine, row_fill]
        simp [fill, readBytes_copyBytes_self]
      · cases h
        exact ⟨rfl, .inl ⟨rfl, rfl, row_fill page tuple fits⟩⟩
    · cases h
      exact ⟨rfl, .inl ⟨rfl, rfl, fun _ => rfl⟩⟩

theorem line_modifyLine (page : Page) (offset : Nat) (f : LinePointer → LinePointer)
    (keeps : ∀ line, (f line).offset = line.offset ∧ (f line).len = line.len) (other : Nat) :
    (page.modifyLine offset f keeps).line other =
      if other = offset ∨ (offset = 0 ∧ other = 1) then (page.line other).map f
      else page.line other := by
  unfold Page.line modifyLine
  by_cases zero : other = 0
  · simp [zero]
  · simp only [zero, if_false, getElem?_modify]
    by_cases same : offset - 1 = other - 1
    · have hit : other = offset ∨ (offset = 0 ∧ other = 1) := by omega
      simp [same, hit]
    · have miss : ¬ (other = offset ∨ (offset = 0 ∧ other = 1)) := by omega
      simp [same, miss]

@[simp] theorem modifyLine_block (page : Page) (offset : Nat) (f : LinePointer → LinePointer)
    (keeps : ∀ line, (f line).offset = line.offset ∧ (f line).len = line.len) :
    (page.modifyLine offset f keeps).block = page.block := rfl

@[simp] theorem modifyLine_length (page : Page) (offset : Nat) (f : LinePointer → LinePointer)
    (keeps : ∀ line, (f line).offset = line.offset ∧ (f line).len = line.len) :
    (page.modifyLine offset f keeps).linePointers.length = page.linePointers.length := by
  simp [modifyLine]

/-- Stamps are not part of a row. -/
theorem row_modifyLine_of_state (page : Page) (offset : Nat) (f : LinePointer → LinePointer)
    (keeps : ∀ line, (f line).offset = line.offset ∧ (f line).len = line.len)
    (sameState : ∀ line, (f line).state = line.state) (other : Nat) :
    (page.modifyLine offset f keeps).row other = page.row other := by
  unfold row
  rw [line_modifyLine]
  split
  · cases page.line other with
    | none => rfl
    | some line => simp [sameState, (keeps line).1, (keeps line).2, modifyLine]
  · rfl

theorem row_setState (page : Page) (positive : offset ≠ 0)
    (state : LinePointerState) (other : Nat) :
    (page.modifyLine offset (withState state) fun _ => ⟨rfl, rfl⟩).row other =
      if other = offset then (page.row other).map fun row => (state, row.2)
      else page.row other := by
  unfold row
  rw [line_modifyLine]
  have noWrap : ¬ (offset = 0 ∧ other = 1) := by omega
  by_cases same : other = offset
  · simp only [same, true_or, if_true, Option.map_map]
    rfl
  · simp only [same, noWrap, or_self, if_false]
    rfl

theorem line_offset_ne_zero (found : page.line offset = some line) : offset ≠ 0 := by
  rintro rfl
  simp [Page.line] at found

theorem row_of_line (found : page.line offset = some line) :
    page.row offset = some (line.state, readBytes page.bytes line.offset line.len) := by
  simp [row, found]

theorem row_none_of_line (missing : page.line offset = none) :
    page.row offset = none := by
  simp [row, missing]

/-- What marking does to a page: nothing, or a line goes from its state to another. -/
inductive Marked (page : Page) (offset : Nat) (goes : LinePointerState → LinePointerState) :
    Page → Prop
  | same : (∀ line, page.line offset = some line → goes line.state = line.state) →
      Marked page offset goes page
  | moves {line : LinePointer} : page.line offset = some line → goes line.state ≠ line.state →
      Marked page offset goes (addState (goes line.state) line.len (subState line.state line.len
        (page.modifyLine offset (withState (goes line.state)) fun _ => ⟨rfl, rfl⟩)))

theorem markDead_marked (page : Page) (offset : Nat) :
    page.Marked offset (fun _ => .dead) (page.markDead offset).1 := by
  unfold markDead
  cases found : page.line offset with
  | none => exact .same (by simp [found])
  | some line =>
    dsimp only
    split
    · rename_i dead
      exact .same (by simp [found, dead])
    · rename_i alive
      exact .moves found (Ne.symm alive)

theorem markLive_marked (page : Page) (offset : Nat) :
    page.Marked offset (fun state => if state = .pending then .live else state)
      (page.markLive offset).1 := by
  unfold markLive
  cases found : page.line offset with
  | none => exact .same (by simp [found])
  | some line =>
    dsimp only
    split
    · rename_i settled
      exact .same (by simp [found, settled])
    · rename_i pending
      rw [not_not] at pending
      have moved := @Marked.moves page offset (fun state => if state = .pending then .live else state)
        line found (by simp [pending])
      simpa only [pending, if_true] using moved

variable {page' : Page} {goes : LinePointerState → LinePointerState}

theorem Marked.row (marked : page.Marked offset goes page') (other : Nat) :
    page'.row other =
      if other = offset then (page.row other).map fun row => (goes row.1, row.2)
      else page.row other := by
  cases marked with
  | same settled =>
    split
    · rename_i here
      subst here
      cases found : page.line other with
      | none => simp [row_none_of_line found]
      | some line => simp [row_of_line found, settled line found]
    · rfl
  | moves found =>
    rw [addState_row, subState_row, row_setState page (line_offset_ne_zero found)]
    split
    · rename_i here
      simp [here, row_of_line found]
    · rfl

theorem Marked.kept (marked : page.Marked offset goes page') :
    page'.block = page.block ∧ page'.linePointers.length = page.linePointers.length := by
  cases marked <;> simp

theorem markDead_block (page : Page) (offset : Nat) :
    (page.markDead offset).1.block = page.block := (page.markDead_marked offset).kept.1

theorem markLive_block (page : Page) (offset : Nat) :
    (page.markLive offset).1.block = page.block := (page.markLive_marked offset).kept.1

@[simp] theorem row_setInsertMetadata (page : Page) (offset xmin cmin other : Nat) :
    (page.setInsertMetadata offset xmin cmin).row other = page.row other :=
  row_modifyLine_of_state page offset (withInsert xmin cmin) _ (fun _ => rfl) other

@[simp] theorem row_setRowXmax (page : Page) (offset xmax other : Nat) :
    (page.setRowXmax offset xmax).row other = page.row other :=
  row_modifyLine_of_state page offset (withXmax xmax) _ (fun _ => rfl) other

@[simp] theorem restore_block (page : Page) (checkpoint : PageCheckpoint) :
    (page.restoreToPreservingTidSpace checkpoint).block = page.block := rfl

@[simp] theorem restore_length (page : Page) (checkpoint : PageCheckpoint) :
    (page.restoreToPreservingTidSpace checkpoint).linePointers.length =
      page.linePointers.length := by
  simp only [restoreToPreservingTidSpace, recomputeTupleBytes, length_append,
    length_take, length_map, length_drop]
  omega

/-- A restored page keeps the rows up to the checkpoint and kills the later ones. -/
theorem row_restore (page : Page) (checkpoint : PageCheckpoint) (offset : Nat) :
    (page.restoreToPreservingTidSpace checkpoint).row offset =
      if offset ≤ checkpoint.lineCount then page.row offset
      else (page.row offset).map fun row => (.dead, row.2) := by
  by_cases zero : offset = 0
  · simp [zero, row, Page.line]
  · by_cases inside : offset ≤ page.linePointers.length
    · unfold row Page.line
      simp only [zero, if_false, restoreToPreservingTidSpace, recomputeTupleBytes]
      by_cases kept : offset ≤ checkpoint.lineCount
      · have early : offset - 1 < min checkpoint.lineCount page.linePointers.length := by omega
        rw [getElem?_append_left (by simp only [length_take]; omega),
          getElem?_take_of_lt early, if_pos kept]
      · have late : min checkpoint.lineCount page.linePointers.length ≤ offset - 1 := by omega
        rw [getElem?_append_right (by simp only [length_take]; omega), if_neg kept,
          getElem?_map, getElem?_drop, length_take]
        have sameIndex : min checkpoint.lineCount page.linePointers.length +
            (offset - 1 - min (min checkpoint.lineCount page.linePointers.length)
              page.linePointers.length) = offset - 1 := by omega
        rw [sameIndex]
        cases page.linePointers[offset - 1]? <;> rfl
    · have gone : page.row offset = none := row_eq_none_iff.mpr (by omega)
      have goneAfter : (page.restoreToPreservingTidSpace checkpoint).row offset = none :=
        row_eq_none_iff.mpr (by rw [restore_length]; omega)
      simp [gone, goneAfter]

end Page

end FastPg.Storage
