import FastPg.Storage.Tuple

/-! # Relation storage

The committed side of a relation: its pages, the key maps and redirect maps
over them, and the bookkeeping that steers where the next tuple goes.
Transactions also leave pending rows in these pages; a row is committed when
its line pointer is live.
-/

namespace FastPg.Storage

open Assoc Option
open List hiding insert lookup

/-- Committed storage of one relation. A page is filed under its own block.
    The set of reserved tids of the source is never filled and is left out. -/
structure RelationStorage where
  pages : List (Option Page)
  filed : ∀ (block : Nat) (page : Page), pages[block]? = some (some page) → page.block = block
  physicalBlocks : OrdSet Nat
  primaryKeyIndex : List (IndexKey × Tid)
  indexes : List ((Nat × IndexKey) × List Tid)
  hotRedirects : List (Tid × Tid)
  hotRedirectRoots : OrdSet Tid
  hotRedirectTargets : List Tid
  hotRedirectTargetRoots : List (Tid × Tid)
  updateRedirects : List (Tid × Tid)
  rowDeleteXids : List (Tid × Nat)
  rowDeleteCids : List (Tid × Nat)
  liveTids : OrdSet Tid
  pendingReservedBlocks : OrdSet Nat
  appendableBlocks : OrdSet Nat
  nextBlock : Nat
  appendHint : Option Nat
  liveTupleCount : Nat
  pendingTupleCount : Nat
  deadTupleCount : Nat
  liveTupleBytes : Nat
  pendingTupleBytes : Nat
  deadTupleBytes : Nat
  maxTuplesPerBlock : Option Nat

/-- What a rollback needs of a relation as it was before the first change. -/
structure RelationCheckpoint where
  nextBlock : Nat
  maxTuplesPerBlock : Option Nat
  deriving DecidableEq, Repr

namespace RelationStorage

/-- The relation before anything was stored in it. -/
def default : RelationStorage where
  pages := []
  filed := by simp
  physicalBlocks := .empty
  primaryKeyIndex := []
  indexes := []
  hotRedirects := []
  hotRedirectRoots := .empty
  hotRedirectTargets := []
  hotRedirectTargetRoots := []
  updateRedirects := []
  rowDeleteXids := []
  rowDeleteCids := []
  liveTids := .empty
  pendingReservedBlocks := .empty
  appendableBlocks := .empty
  nextBlock := 0
  appendHint := none
  liveTupleCount := 0
  pendingTupleCount := 0
  deadTupleCount := 0
  liveTupleBytes := 0
  pendingTupleBytes := 0
  deadTupleBytes := 0
  maxTuplesPerBlock := none

instance : Inhabited RelationStorage := ⟨default⟩

def checkpoint (relation : RelationStorage) : RelationCheckpoint :=
  ⟨relation.nextBlock, relation.maxTuplesPerBlock⟩

def page (relation : RelationStorage) (block : Nat) : Option Page :=
  (relation.pages[block]?).join

/-- The state and bytes stored at a tid. -/
def row (relation : RelationStorage) (tid : Tid) : Option (LinePointerState × Bytes) :=
  (relation.page tid.block).bind fun page => page.row tid.offset

def tupleSlice (relation : RelationStorage) (tid : Tid) (includePending : Bool) : Option Bytes :=
  (relation.page tid.block).bind fun page => page.tupleSlice tid.offset includePending

def linePointer (relation : RelationStorage) (tid : Tid) : Option LinePointer :=
  (relation.page tid.block).bind fun page => page.line tid.offset

/-- Change the page filed under a block. -/
def modifyPage (relation : RelationStorage) (block : Nat) (f : Page → Page)
    (keeps : ∀ page, (f page).block = page.block) : RelationStorage :=
  { relation with
    pages := relation.pages.modify block (Option.map f)
    filed := by
      intro other page found
      rw [List.getElem?_modify] at found
      split at found
      · rename_i same
        subst same
        cases old : relation.pages[block]? with
        | none => simp [old] at found
        | some entry =>
          cases entry with
          | none => simp [old] at found
          | some oldPage =>
            simp only [old, Option.map_eq_map, Option.map_some, Option.some.injEq] at found
            rw [← found, keeps]
            exact relation.filed _ _ old
      · simp only [id_map'] at found
        exact relation.filed _ _ found }

def pageCanAcceptTuple (relation : RelationStorage) (page : Page) (tupleLen : Nat) : Bool :=
  page.canFit tupleLen &&
    (match relation.maxTuplesPerBlock with
      | none => true
      | some max => page.linePointers.length < max)

/-- Whether the page under a block exists and takes a tuple of this length. -/
def blockAccepts (relation : RelationStorage) (tupleLen block : Nat) : Bool :=
  match relation.page block with
  | some page => relation.pageCanAcceptTuple page tupleLen
  | none => false

/-- Record whether a block takes further tuples; the hint is the last such block. -/
def noteAppendable (relation : RelationStorage) (block : Nat) (accepts : Bool) : RelationStorage :=
  let blocks := if accepts then relation.appendableBlocks.insert block
    else relation.appendableBlocks.erase block
  { relation with appendableBlocks := blocks, appendHint := blocks.elems.getLast? }

def refreshAppendableBlock (relation : RelationStorage) (block : Nat) : RelationStorage :=
  relation.noteAppendable block (relation.blockAccepts 1 block)

def recomputeAppendableBlocks (relation : RelationStorage) : RelationStorage :=
  let blocks := OrdSet.ofList (relation.physicalBlocks.elems.filter (relation.blockAccepts 1))
  { relation with appendableBlocks := blocks, appendHint := blocks.elems.getLast? }

/-- `insert_page`: file a page under its block, growing the page vector. -/
def insertPage (relation : RelationStorage) (page : Page) : RelationStorage :=
  refreshAppendableBlock
    { relation with
      pages := (relation.pages ++
        List.replicate (page.block + 1 - relation.pages.length) none).set page.block (some page)
      filed := by
        intro block other found
        rw [List.getElem?_set] at found
        split at found
        · rename_i same
          split at found
          · simp only [Option.some.injEq] at found
            exact found ▸ same
          · cases found
        · by_cases inside : block < relation.pages.length
          · rw [List.getElem?_append_left inside] at found
            exact relation.filed _ _ found
          · rw [List.getElem?_append_right (by omega)] at found
            have := List.mem_of_getElem? found
            simp [List.mem_replicate] at this
      physicalBlocks := relation.physicalBlocks.insert page.block }
    page.block

/-- `reserve_block`: block numbers are 32-bit and never given back. -/
def reserveBlock (relation : RelationStorage) : Option (RelationStorage × Nat) :=
  if relation.nextBlock + 1 < 2 ^ 32 then
    some ({ relation with nextBlock := relation.nextBlock + 1 }, relation.nextBlock)
  else none

/-- `append_target_block`: the hinted block, the last appendable block that
    takes the tuple, or a new page. -/
def appendTargetBlock (relation : RelationStorage) (tupleLen : Nat) :
    RelationStorage × Option Nat :=
  match relation.appendHint.filter (relation.blockAccepts tupleLen) with
  | some block => (relation, some block)
  | none =>
    match relation.appendableBlocks.elems.reverse.find? (relation.blockAccepts tupleLen) with
    | some block => ({ relation with appendHint := some block }, some block)
    | none =>
      match relation.reserveBlock with
      | none => (relation, none)
      | some (reserved, block) => (reserved.insertPage (Page.new block tupleLen), some block)

theorem append_keeps_block (tuple : Bytes) (state : LinePointerState) (page : Page) :
    (page.appendTupleWithState tuple state).1.block = page.block :=
  (Page.appendTupleWithState_spec (Prod.eta _).symm).1

/-- `append_pending_tuple` and `append_pending_input_tuple`: append to the page
    under a block. -/
def appendPendingTuple (relation : RelationStorage) (block : Nat) (tuple : Bytes) :
    RelationStorage × Option Tid :=
  match relation.page block with
  | none => (relation, none)
  | some page =>
    let appended := relation.modifyPage block
      (fun page => (page.appendTupleWithState tuple .pending).1) (append_keeps_block tuple .pending)
    match page.appendTupleWithState tuple .pending with
    | (_, none) => (appended, none)
    | (_, some tid) =>
      let counted : RelationStorage :=
        { appended with
          pendingTupleCount := relation.pendingTupleCount + 1
          pendingTupleBytes := relation.pendingTupleBytes + tuple.length }
      (counted.noteAppendable block (counted.blockAccepts 1 block), some tid)

/-- Take a row that leaves `state` out of the counters and the live tids. -/
def forgetState (relation : RelationStorage) (tid : Tid) (len : Nat) :
    LinePointerState → RelationStorage
  | .pending =>
    { relation with
      pendingTupleCount := relation.pendingTupleCount - 1
      pendingTupleBytes := relation.pendingTupleBytes - len }
  | .live =>
    { relation with
      liveTupleCount := relation.liveTupleCount - 1
      liveTupleBytes := relation.liveTupleBytes - len
      liveTids := relation.liveTids.erase tid }
  | .dead => relation

def countDead (relation : RelationStorage) (len : Nat) : RelationStorage :=
  { relation with
    deadTupleCount := relation.deadTupleCount + 1
    deadTupleBytes := relation.deadTupleBytes + len }

def countLive (relation : RelationStorage) (tid : Tid) (len : Nat) : RelationStorage :=
  { relation with
    liveTupleCount := relation.liveTupleCount + 1
    liveTupleBytes := relation.liveTupleBytes + len
    liveTids := relation.liveTids.insert tid }

/-- `mark_dead`: whether a row died, with the relation after it. -/
def markDead (relation : RelationStorage) (tid : Tid) : RelationStorage × Bool :=
  match relation.linePointer tid with
  | none => (relation, false)
  | some line =>
    if line.state = .dead then (relation, false)
    else
      let marked := relation.modifyPage tid.block (fun page => (page.markDead tid.offset).1)
        fun page => page.markDead_block tid.offset
      ((marked.forgetState tid line.len line.state).countDead line.len, true)

/-- `mark_live`: whether a pending row was published. -/
def markLive (relation : RelationStorage) (tid : Tid) : RelationStorage × Bool :=
  match relation.linePointer tid with
  | none => (relation, false)
  | some line =>
    if line.state ≠ .pending then (relation, false)
    else
      let marked := relation.modifyPage tid.block (fun page => (page.markLive tid.offset).1)
        fun page => page.markLive_block tid.offset
      ((marked.forgetState tid line.len .pending).countLive tid line.len, true)

def setInsertMetadata (relation : RelationStorage) (tid : Tid) (xmin cmin : Nat) : RelationStorage :=
  match relation.linePointer tid with
  | none => relation
  | some _ => relation.modifyPage tid.block (fun page => page.setInsertMetadata tid.offset xmin cmin)
      fun _ => rfl

def setRowXmax (relation : RelationStorage) (tid : Tid) (xmax : Nat) : RelationStorage :=
  match relation.linePointer tid with
  | none => relation
  | some _ => relation.modifyPage tid.block (fun page => page.setRowXmax tid.offset xmax)
      fun _ => rfl

/-- `set_max_tuples_per_block`: the limit is kept between one and the largest offset. -/
def setMaxTuplesPerBlock (relation : RelationStorage) (maxTuples : Nat) : RelationStorage :=
  recomputeAppendableBlocks
    { relation with maxTuplesPerBlock := some (max 1 (min maxTuples maxCtidOffset)) }

def restoreRollbackMetadataPreservingTidSpace (relation : RelationStorage)
    (checkpoint : RelationCheckpoint) : RelationStorage :=
  let raised : RelationStorage :=
    { relation with
      nextBlock := max (max relation.nextBlock checkpoint.nextBlock) relation.pages.length }
  if relation.maxTuplesPerBlock ≠ checkpoint.maxTuplesPerBlock then
    recomputeAppendableBlocks { raised with maxTuplesPerBlock := checkpoint.maxTuplesPerBlock }
  else raised

/-- The existing pages in block order. -/
def pageList (relation : RelationStorage) : List Page := relation.pages.filterMap id

def stateCount (relation : RelationStorage) (state : LinePointerState) : Nat :=
  (relation.pageList.map fun page =>
    (page.linePointers.filter fun line => line.state = state).length).sum

def stateBytes (relation : RelationStorage) (state : LinePointerState) : Nat :=
  (relation.pageList.map fun page => Page.stateBytes page.linePointers state).sum

/-- The tids of the live line pointers of a page. -/
def livePageTids (page : Page) : List Tid :=
  ((List.range page.linePointers.length).filter fun index =>
    match page.linePointers[index]? with
    | some line => line.state = .live
    | none => false).map fun index => ⟨page.block, index + 1⟩

def recomputeTupleStats (relation : RelationStorage) : RelationStorage :=
  { relation with
    liveTupleCount := relation.stateCount .live
    pendingTupleCount := relation.stateCount .pending
    deadTupleCount := relation.stateCount .dead
    liveTupleBytes := relation.stateBytes .live
    pendingTupleBytes := relation.stateBytes .pending
    deadTupleBytes := relation.stateBytes .dead
    liveTids := OrdSet.ofList (relation.pageList.flatMap livePageTids)
    physicalBlocks := OrdSet.ofList (relation.pageList.map Page.block) }

def restoreMetadataPreservingTidSpace (relation : RelationStorage)
    (checkpoint : RelationCheckpoint) : RelationStorage :=
  recomputeTupleStats <| recomputeAppendableBlocks
    { relation with
      nextBlock := max (max relation.nextBlock checkpoint.nextBlock) relation.pages.length
      maxTuplesPerBlock := checkpoint.maxTuplesPerBlock }

def insertIndexEntry (relation : RelationStorage) (indexRelid : Nat) (key : IndexKey) (tid : Tid) :
    RelationStorage :=
  let tids := (lookup relation.indexes (indexRelid, key)).getD []
  { relation with indexes := upsert relation.indexes (indexRelid, key) (pushUnique tids tid) }

/-- `insert_hot_redirect`: write one redirect and keep the side tables of chain
    roots and targets. A target that lost its last redirect leaves the tables. -/
def insertHotRedirect (relation : RelationStorage) (oldTid newTid : Tid) : RelationStorage :=
  let root := (lookup relation.hotRedirectTargetRoots oldTid).getD oldTid
  let redirects := upsert relation.hotRedirects oldTid newTid
  let dropped : Option Tid := (lookup relation.hotRedirects oldTid).filter fun previous =>
    previous ≠ newTid && !(redirects.any fun entry => entry.2 = previous)
  let targets := match dropped with
    | some previous => relation.hotRedirectTargets.filter (· ≠ previous)
    | none => relation.hotRedirectTargets
  let targetRoots := match dropped with
    | some previous => remove relation.hotRedirectTargetRoots previous
    | none => relation.hotRedirectTargetRoots
  { relation with
    hotRedirects := redirects
    hotRedirectRoots := relation.hotRedirectRoots.insert root
    hotRedirectTargets := pushUnique targets newTid
    hotRedirectTargetRoots := upsert targetRoots newTid root }

/-! ## What the operations do to rows and pages -/

variable {relation relation' : RelationStorage} {block : Nat} {page : Page} {tid : Tid}

theorem page_block (found : relation.page block = some page) : page.block = block := by
  apply relation.filed
  simpa [RelationStorage.page, join_eq_some_iff] using found

theorem tupleSlice_eq (relation : RelationStorage) (tid : Tid) (includePending : Bool) :
    relation.tupleSlice tid includePending =
      (relation.row tid).bind fun row =>
        if Page.readable includePending row.1 then some row.2 else none := by
  unfold RelationStorage.tupleSlice RelationStorage.row
  cases relation.page tid.block with
  | none => rfl
  | some page => exact page.tupleSlice_eq tid.offset includePending

theorem row_of_linePointer {line : LinePointer} (found : relation.linePointer tid = some line) :
    ∃ bytes, relation.row tid = some (line.state, bytes) := by
  unfold linePointer at found
  cases paged : relation.page tid.block with
  | none => simp [paged] at found
  | some page =>
    simp only [paged, bind_some] at found
    exact ⟨_, by simpa [RelationStorage.row, paged] using Page.row_of_line found⟩

theorem row_none_of_linePointer (missing : relation.linePointer tid = none) :
    relation.row tid = none := by
  unfold linePointer at missing
  unfold RelationStorage.row
  cases paged : relation.page tid.block with
  | none => rfl
  | some page =>
    simp only [paged, bind_some] at missing
    exact Page.row_none_of_line missing

/-- Whether a page is filed under a block. -/
def physical (relation : RelationStorage) (block : Nat) : Prop := (relation.page block).isSome

theorem physical_of_row {entry : LinePointerState × Bytes} (found : relation.row tid = some entry) :
    relation.physical tid.block := by
  unfold physical
  unfold RelationStorage.row at found
  cases paged : relation.page tid.block with
  | none => simp [paged] at found
  | some page => rfl

theorem page_modifyPage (relation : RelationStorage) (block : Nat) (f : Page → Page)
    (keeps : ∀ page, (f page).block = page.block) (other : Nat) :
    (relation.modifyPage block f keeps).page other =
      if other = block then (relation.page other).map f else relation.page other := by
  unfold RelationStorage.page modifyPage
  simp only [getElem?_modify]
  by_cases same : block = other
  · subst same
    simp only [if_true]
    cases relation.pages[block]? with
    | none => rfl
    | some entry => cases entry <;> rfl
  · simp [same, Ne.symm same]

theorem physical_modifyPage {f : Page → Page}
    {keeps : ∀ page, (f page).block = page.block} {other : Nat} :
    (relation.modifyPage block f keeps).physical other ↔ relation.physical other := by
  unfold physical
  rw [page_modifyPage]
  split <;> simp

theorem row_modifyPage (relation : RelationStorage) (block : Nat) (f : Page → Page)
    (keeps : ∀ page, (f page).block = page.block) (tid : Tid) :
    (relation.modifyPage block f keeps).row tid =
      if tid.block = block then (relation.page block).bind fun page => (f page).row tid.offset
      else relation.row tid := by
  unfold RelationStorage.row
  rw [page_modifyPage]
  split
  · rename_i same
    rw [same]
    cases relation.page block <;> rfl
  · rfl

/-- Changing the row at one offset of one page changes one row of the relation. -/
theorem row_modifyPage_at (relation : RelationStorage) (tid : Tid) (f : Page → Page)
    (keeps : ∀ page, (f page).block = page.block)
    (g : LinePointerState × Bytes → LinePointerState × Bytes)
    (change : ∀ page offset, (f page).row offset =
      if offset = tid.offset then (page.row offset).map g else page.row offset) (other : Tid) :
    (relation.modifyPage tid.block f keeps).row other =
      if other = tid then (relation.row other).map g else relation.row other := by
  rw [row_modifyPage]
  by_cases same : other.block = tid.block
  · simp only [same, if_true]
    unfold RelationStorage.row
    rw [same]
    cases relation.page tid.block with
    | none => simp
    | some page =>
      simp only [bind_some, change]
      by_cases sameOffset : other.offset = tid.offset
      · simp [Tid.ext_iff'.mpr ⟨same, sameOffset⟩]
      · have ne : other ≠ tid := fun h => sameOffset (h ▸ rfl)
        simp [sameOffset, ne]
  · have ne : other ≠ tid := fun h => same (h ▸ rfl)
    simp [same, ne]

theorem row_modifyPage_unchanged (relation : RelationStorage) (block : Nat) (f : Page → Page)
    (keeps : ∀ page, (f page).block = page.block)
    (same : ∀ page offset, (f page).row offset = page.row offset) (tid : Tid) :
    (relation.modifyPage block f keeps).row tid = relation.row tid := by
  rw [row_modifyPage]
  split
  · rename_i here
    unfold RelationStorage.row
    rw [here]
    cases relation.page block with
    | none => rfl
    | some page => exact same page tid.offset
  · rfl

@[simp] theorem noteAppendable_page (relation : RelationStorage) (block : Nat) (accepts : Bool) :
    (relation.noteAppendable block accepts).page = relation.page := rfl

@[simp] theorem noteAppendable_row (relation : RelationStorage) (block : Nat) (accepts : Bool) :
    (relation.noteAppendable block accepts).row = relation.row := rfl

theorem page_insertPage (relation : RelationStorage) (page : Page) (block : Nat) :
    (relation.insertPage page).page block =
      if block = page.block then some page else relation.page block := by
  have grown : page.block < (relation.pages ++
      replicate (page.block + 1 - relation.pages.length) (none : Option Page)).length := by
    simp only [length_append, length_replicate]
    omega
  unfold insertPage refreshAppendableBlock
  rw [noteAppendable_page]
  unfold RelationStorage.page
  simp only [getElem?_set]
  by_cases same : page.block = block
  · subst same
    simp only [if_true, if_pos grown]
    rfl
  · simp only [same, if_false, Ne.symm same]
    by_cases inside : block < relation.pages.length
    · rw [getElem?_append_left inside]
    · have outside : relation.pages[block]? = none := getElem?_eq_none (by omega)
      rw [getElem?_append_right (by omega), getElem?_replicate, outside]
      split <;> rfl

theorem row_insertPage (relation : RelationStorage) (page : Page) (tid : Tid) :
    (relation.insertPage page).row tid =
      if tid.block = page.block then page.row tid.offset else relation.row tid := by
  unfold RelationStorage.row
  rw [page_insertPage]
  split <;> rfl

theorem physical_insertPage :
    (relation.insertPage page).physical block ↔ block = page.block ∨ relation.physical block := by
  unfold physical
  rw [page_insertPage]
  split <;> simp_all

@[simp] theorem insertPage_nextBlock (relation : RelationStorage) (page : Page) :
    (relation.insertPage page).nextBlock = relation.nextBlock := rfl

@[simp] theorem insertPage_liveTids (relation : RelationStorage) (page : Page) :
    (relation.insertPage page).liveTids = relation.liveTids := rfl

/-- The fields no row operation touches: the allocation frontier and every map. -/
structure SameMaps (a b : RelationStorage) : Prop where
  nextBlock : a.nextBlock = b.nextBlock
  primaryKeyIndex : a.primaryKeyIndex = b.primaryKeyIndex
  indexes : a.indexes = b.indexes
  hotRedirects : a.hotRedirects = b.hotRedirects
  hotRedirectRoots : a.hotRedirectRoots = b.hotRedirectRoots
  hotRedirectTargets : a.hotRedirectTargets = b.hotRedirectTargets
  hotRedirectTargetRoots : a.hotRedirectTargetRoots = b.hotRedirectTargetRoots
  updateRedirects : a.updateRedirects = b.updateRedirects

variable {a b : RelationStorage}

theorem SameMaps.rfl' : SameMaps a a :=
  ⟨rfl, rfl, rfl, rfl, rfl, rfl, rfl, rfl⟩

theorem SameMaps.trans {c : RelationStorage} (first : SameMaps a b) (second : SameMaps b c) :
    SameMaps a c :=
  ⟨first.1.trans second.1, first.2.trans second.2, first.3.trans second.3, first.4.trans second.4,
    first.5.trans second.5, first.6.trans second.6, first.7.trans second.7, first.8.trans second.8⟩

/-- Only the pages matter to what is read of them. -/
theorem page_congr (pages : a.pages = b.pages) : a.page = b.page ∧ a.row = b.row := by
  have same : a.page = b.page := by
    funext block
    simp [RelationStorage.page, pages]
  exact ⟨same, by funext tid; simp [RelationStorage.row, same]⟩

/-- What marking does to a relation: nothing, or a row goes from its state to
    another, on its page and in the set of live tids. -/
inductive Marked (relation : RelationStorage) (tid : Tid)
    (goes : LinePointerState → LinePointerState) : RelationStorage → Prop
  | same : (∀ entry, relation.row tid = some entry → goes entry.1 = entry.1) →
      Marked relation tid goes relation
  | moves {marked : RelationStorage} {state : LinePointerState} {bytes : Bytes} {f : Page → Page} :
      relation.row tid = some (state, bytes) → goes state ≠ state →
      (∀ page : Page, page.Marked tid.offset goes (f page)) →
      marked.pages = relation.pages.modify tid.block (Option.map f) → SameMaps marked relation →
      marked.liveTids = (if state = .live then relation.liveTids.erase tid
        else if goes state = .live then relation.liveTids.insert tid else relation.liveTids) →
      marked.liveTupleCount = (if state = .live then relation.liveTupleCount - 1
        else if goes state = .live then relation.liveTupleCount + 1
        else relation.liveTupleCount) → Marked relation tid goes marked

theorem markDead_marked (relation : RelationStorage) (tid : Tid) :
    relation.Marked tid (fun _ => .dead) (relation.markDead tid).1 := by
  unfold markDead
  cases found : relation.linePointer tid with
  | none => exact .same (by simp [row_none_of_linePointer found])
  | some line =>
    obtain ⟨bytes, stored⟩ := row_of_linePointer found
    dsimp only
    split
    · rename_i dead
      exact .same (by simp [stored, dead])
    · rename_i alive
      refine .moves stored (Ne.symm alive) (fun page => page.markDead_marked tid.offset) ?_ ?_ ?_ ?_
      all_goals cases line.state
      all_goals first
        | rfl
        | exact ⟨rfl, rfl, rfl, rfl, rfl, rfl, rfl, rfl⟩

theorem markLive_marked (relation : RelationStorage) (tid : Tid) :
    relation.Marked tid (fun state => if state = .pending then .live else state)
      (relation.markLive tid).1 := by
  unfold markLive
  cases found : relation.linePointer tid with
  | none => exact .same (by simp [row_none_of_linePointer found])
  | some line =>
    obtain ⟨bytes, stored⟩ := row_of_linePointer found
    dsimp only
    split
    · rename_i settled
      exact .same (by simp [stored, settled])
    · rename_i pending
      rw [not_not] at pending
      rw [pending] at stored
      exact .moves stored (by simp) (fun page => page.markLive_marked tid.offset) rfl
        ⟨rfl, rfl, rfl, rfl, rfl, rfl, rfl, rfl⟩ rfl rfl

variable {goes : LinePointerState → LinePointerState}

theorem Marked.row (marked : relation.Marked tid goes relation') (other : Tid) :
    relation'.row other =
      if other = tid then (relation.row other).map fun row => (goes row.1, row.2)
      else relation.row other := by
  cases marked with
  | same settled =>
    split
    · rename_i here
      subst here
      cases stored : relation.row other with
      | none => rfl
      | some entry => rw [Option.map_some, settled entry stored]
    · rfl
  | @moves _ _ _ f _ _ paged pages =>
    rw [(@page_congr _ (relation.modifyPage tid.block f fun page => (paged page).kept.1) pages).2]
    exact row_modifyPage_at relation tid f _ (fun row => (goes row.1, row.2))
      (fun page offset => (paged page).row offset) other

theorem Marked.maps (marked : relation.Marked tid goes relation') : SameMaps relation' relation := by
  cases marked with
  | same => exact .rfl'
  | moves _ _ _ _ maps => exact maps

theorem Marked.physical (marked : relation.Marked tid goes relation') :
    relation'.physical block ↔ relation.physical block := by
  cases marked with
  | same => rfl
  | @moves _ _ _ f _ _ paged pages =>
    unfold RelationStorage.physical
    rw [(@page_congr _ (relation.modifyPage tid.block f fun page => (paged page).kept.1) pages).1]
    exact physical_modifyPage

/-- What every relation keeps: pages lie below the allocation frontier, the set
    of live tids is the set of live rows, and the live rows are counted. -/
structure Sound (relation : RelationStorage) : Prop where
  below : ∀ block, relation.physical block → block < relation.nextBlock
  live : ∀ tid, tid ∈ relation.liveTids ↔ ∃ bytes, relation.row tid = some (.live, bytes)
  counted : relation.liveTupleCount = relation.liveTids.elems.length

variable {result : Option Tid}

theorem default_sound : Sound default := by
  constructor
  · intro block paged
    simp [physical, RelationStorage.page, default] at paged
  · intro tid
    simp [RelationStorage.row, RelationStorage.page, default]
  · rfl

/-- Only pages, frontier, live tids and their count matter to `Sound`. -/
theorem Sound.congr (sound : Sound b) (pages : a.pages = b.pages)
    (frontier : b.nextBlock ≤ a.nextBlock) (live : a.liveTids = b.liveTids)
    (count : a.liveTupleCount = b.liveTupleCount) : Sound a := by
  obtain ⟨samePage, sameRow⟩ := page_congr pages
  constructor
  · intro block paged
    have := sound.below block (by simpa [physical, samePage] using paged)
    omega
  · intro tid
    rw [live, sound.live, sameRow]
  · rw [count, live, sound.counted]

theorem Marked.sound (marked : relation.Marked tid goes relation') (sound : Sound relation) :
    Sound relation' := by
  have row := marked.row
  have maps := marked.maps
  have physical (block : Nat) := @Marked.physical _ _ block _ _ marked
  cases marked with
  | same => exact sound
  | @moves _ state bytes f stored moved _ _ _ live count =>
    have mem : tid ∈ relation.liveTids ↔ state = .live := by
      rw [sound.live, stored]
      simp
    refine ⟨fun block filed => ?_, fun other => ?_, ?_⟩
    · rw [maps.nextBlock]
      exact sound.below block ((physical block).mp filed)
    · rw [row, live]
      by_cases same : other = tid
      · subst same
        split
        · simp_all
        · split <;> simp_all
      · rw [if_neg same, ← sound.live]
        split
        · simp [same]
        · split <;> simp [same]
    · rw [count, live]
      split
      · rename_i isLive
        rw [OrdSet.length_erase (mem.mpr isLive), sound.counted]
      · rename_i notLive
        split
        · rw [OrdSet.length_insert (mt mem.mp notLive), sound.counted]
        · exact sound.counted

theorem insertPage_sound (sound : Sound relation) (fresh : page.block < relation.nextBlock)
    (unfiled : ¬ relation.physical page.block)
    (noLive : ∀ offset bytes, page.row offset ≠ some (.live, bytes)) :
    Sound (relation.insertPage page) := by
  constructor
  · intro block paged
    rcases physical_insertPage.mp paged with rfl | paged
    · exact fresh
    · exact sound.below block paged
  · intro tid
    rw [insertPage_liveTids, sound.live, row_insertPage]
    by_cases here : tid.block = page.block
    · simp only [here, if_true]
      constructor
      · rintro ⟨bytes, stored⟩
        exact absurd (here ▸ physical_of_row stored) unfiled
      · rintro ⟨bytes, stored⟩
        exact absurd stored (noLive _ _)
    · simp [here]
  · exact sound.counted

/-- Choosing where to append moves no row; it may file one new empty page. -/
theorem appendTargetBlock_spec {tupleLen : Nat}
    {result : Option Nat} (h : relation.appendTargetBlock tupleLen = (relation', result))
    (sound : Sound relation) :
    Sound relation' ∧ (∀ tid, relation'.row tid = relation.row tid) ∧
      relation.nextBlock ≤ relation'.nextBlock ∧
      (∀ block, relation'.physical block → relation.physical block ∨ relation.nextBlock ≤ block) ∧
      (∀ block, relation.physical block → relation'.physical block) := by
  unfold appendTargetBlock at h
  split at h
  · cases h
    exact ⟨sound, fun _ => rfl, le_rfl, fun _ => .inl, fun _ => id⟩
  · split at h
    · cases h
      exact ⟨sound.congr rfl le_rfl rfl rfl, fun _ => rfl, le_rfl, fun _ => .inl, fun _ => id⟩
    · unfold reserveBlock at h
      split at h
      · cases h
        exact ⟨sound, fun _ => rfl, le_rfl, fun _ => .inl, fun _ => id⟩
      · rename_i reserved block reservation
        split at reservation
        · cases reservation
          cases h
          have unfiled : ¬ relation.physical relation.nextBlock := fun paged =>
            absurd (sound.below _ paged) (lt_irrefl _)
          have raised : Sound { relation with nextBlock := relation.nextBlock + 1 } :=
            sound.congr rfl (Nat.le_succ _) rfl rfl
          refine ⟨insertPage_sound raised (Nat.lt_succ_self _) unfiled (by simp), ?_, Nat.le_succ _,
            ?_, ?_⟩
          · intro tid
            rw [row_insertPage]
            by_cases here : tid.block = relation.nextBlock
            · have missing : relation.row tid = none := by
                cases stored : relation.row tid with
                | none => rfl
                | some entry => exact absurd (here ▸ physical_of_row stored) unfiled
              simp [here, missing]
            · simp only [Page.new_block, here, if_false]
              rfl
          · intro other paged
            rcases physical_insertPage.mp paged with rfl | paged
            · exact .inr le_rfl
            · exact .inl paged
          · intro other paged
            exact physical_insertPage.mpr (.inr paged)
        · cases reservation

/-- Appending adds one pending row past the end of its page, or nothing. -/
theorem appendPendingTuple_spec {tuple : Bytes}
    (h : relation.appendPendingTuple block tuple = (relation', result)) :
    SameMaps relation' relation ∧
      (relation'.liveTids = relation.liveTids ∧ relation'.liveTupleCount = relation.liveTupleCount) ∧
      (∀ other, relation'.physical other ↔ relation.physical other) ∧
      ((result = none ∧ ∀ tid, relation'.row tid = relation.row tid) ∨
        ∃ tid, result = some tid ∧ tid.block = block ∧ relation.physical block ∧
          relation.row tid = none ∧
          ∀ other, relation'.row other =
            if other = tid then some (.pending, tuple) else relation.row other) := by
  unfold appendPendingTuple at h
  cases paged : relation.page block with
  | none =>
    simp only [paged] at h
    cases h
    exact ⟨.rfl', ⟨rfl, rfl⟩, fun _ => Iff.rfl, .inl ⟨rfl, fun _ => rfl⟩⟩
  | some page =>
    simp only [paged] at h
    cases appended : page.appendTupleWithState tuple .pending with
    | mk page' outcome =>
      obtain ⟨sameBlock, cases_⟩ := Page.appendTupleWithState_spec appended
      have physicalSame : ∀ other, (relation.modifyPage block
          (fun page => (page.appendTupleWithState tuple .pending).1)
          (append_keeps_block tuple .pending)).physical other ↔ relation.physical other :=
        fun _ => physical_modifyPage
      have rowAt : ∀ other : Tid, (relation.modifyPage block
          (fun page => (page.appendTupleWithState tuple .pending).1)
          (append_keeps_block tuple .pending)).row other =
            if other.block = block then page'.row other.offset else relation.row other := by
        intro other
        rw [row_modifyPage, paged]
        simp [appended]
      rcases cases_ with ⟨rfl, -, sameRows⟩ | ⟨rfl, -, -, newRows⟩
      · simp only [appended] at h
        cases h
        refine ⟨⟨rfl, rfl, rfl, rfl, rfl, rfl, rfl, rfl⟩, ⟨rfl, rfl⟩, physicalSame, .inl ⟨rfl, ?_⟩⟩
        intro tid
        rw [rowAt]
        split
        · rename_i here
          simp [RelationStorage.row, here, paged, sameRows]
        · rfl
      · simp only [appended] at h
        cases h
        have blockEq : page.block = block := page_block paged
        refine ⟨⟨rfl, rfl, rfl, rfl, rfl, rfl, rfl, rfl⟩, ⟨rfl, rfl⟩, physicalSame, .inr ⟨_, rfl,
          blockEq, by simp [physical, paged], ?_, ?_⟩⟩
        · simp only [RelationStorage.row, blockEq, paged, bind_some]
          exact Page.row_eq_none_iff.mpr (.inr (Nat.lt_succ_self _))
        · intro other
          have applied := rowAt other
          rw [newRows] at applied
          refine (show _ = _ from applied).trans ?_
          by_cases here : other.block = block
          · simp only [here, if_true]
            by_cases last : other.offset = page.linePointers.length + 1
            · have same : other = ⟨page.block, page.linePointers.length + 1⟩ :=
                Tid.ext_iff'.mpr ⟨here.trans blockEq.symm, last⟩
              simp [same]
            · have ne : other ≠ ⟨page.block, page.linePointers.length + 1⟩ :=
                fun same => last (same ▸ rfl)
              simp [last, ne, RelationStorage.row, here, paged]
          · have ne : other ≠ ⟨page.block, page.linePointers.length + 1⟩ :=
              fun same => here (same ▸ blockEq)
            simp [here, ne]

theorem appendPendingTuple_sound {tuple : Bytes}
    (h : relation.appendPendingTuple block tuple = (relation', result)) (sound : Sound relation) :
    Sound relation' := by
  obtain ⟨maps, ⟨live, count⟩, paged, outcome⟩ := appendPendingTuple_spec h
  constructor
  · intro other filed
    rw [maps.nextBlock]
    exact sound.below other ((paged other).mp filed)
  · intro tid
    rw [live, sound.live]
    rcases outcome with ⟨-, same⟩ | ⟨new, -, -, -, missing, rows⟩
    · rw [same]
    · rw [rows]
      split
      · rename_i here
        simp [here, missing]
      · rfl
  · rw [count, live, sound.counted]

end RelationStorage

end FastPg.Storage
