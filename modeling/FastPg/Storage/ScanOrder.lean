import FastPg.Lib.ListCursor
import FastPg.Storage.OwnScan
import FastPg.Storage.Numbers

/-! # The order of a scan

A scan visits places: live tids, roots of HOT chains and own rows, as far as
they are within its high water. The rows it can return, one for each place that
leads to one, stand in the order of their places; a scan moves over that list as
a cursor does, forwards and backwards, and turns at either end.
-/

namespace FastPg.Storage

open Assoc Redirect List Option RelationStorage RelationOverlay Overlays

/-! ## Cursors between tids -/

/-- A tid that a scan can stand on: lines are numbered from one in sixteen bits,
    and the last block number is no block. -/
structure Tid.Numbered (tid : Tid) : Prop where
  line : 0 < tid.offset
  short : tid.offset ≤ maxOffset
  block : tid.block < maxBlock

namespace ScanCursor

variable {tid : Tid}

theorem lt_after (numbered : tid.Numbered) (place : Tid) : tid < (after place).tid ↔ tid ≤ place := by
  have := numbered.line
  have := numbered.short
  have := numbered.block
  unfold after
  split <;> simp only [ScanCursor.tid, Tid.lt_def, Tid.le_def] <;> omega

theorem le_before (numbered : tid.Numbered) (place : Tid) : tid ≤ (before place).tid ↔ tid < place := by
  have := numbered.line
  have := numbered.short
  unfold before
  split
  · simp only [ScanCursor.tid, Tid.lt_def, Tid.le_def]
    omega
  · split <;> simp only [ScanCursor.tid, Tid.lt_def, Tid.le_def] <;> omega

/-- The cursors that a scan over these blocks uses. -/
def Usable (highWater : HighWaterOffsets) (forward : Bool) (cursor : ScanCursor) : Prop :=
  if forward then cursor.offset ≠ 0
  else (cursor.offset = 0 → cursor.block = 0) ∧
    (cursor.block < highWater.length ∨ cursor.block = maxBlock)

variable {highWater : HighWaterOffsets}

theorem usable_after (highWater : HighWaterOffsets) (place : Tid) : Usable highWater true (after place) := by
  by_cases more : place.offset < maxOffset <;> simp [Usable, after, more]

/-- A cursor past a line of these blocks stands on one of them or right behind. -/
theorem after_block {blocks : Nat} {place : Tid} (inside : place.block < blocks) :
    (after place).block < blocks ∨ (after place).block ≤ blocks ∧ (after place).offset = 1 := by
  by_cases more : place.offset < maxOffset
  · exact .inl (by simpa [after, more] using inside)
  · have := Nat.min_le_left (place.block + 1) maxBlock
    rw [after, if_neg more]
    exact .inr ⟨by dsimp only; omega, rfl⟩

theorem usable_before {place : Tid} (filled : 0 < highWater.length)
    (inside : place.block < highWater.length ∨ place.block ≤ highWater.length ∧ place.offset = 1) :
    Usable highWater false (before place) := by
  have positive : 0 < maxOffset := by decide
  by_cases more : 1 < place.offset
  · simp only [Usable, before, more, if_true, Bool.false_eq_true, if_false]
    omega
  · by_cases first : place.block = 0
    · simp [Usable, before, more, first, filled]
    · simp only [Usable, before, more, first, Bool.false_eq_true, if_false]
      omega

theorem usable_past {forward : Bool} (inside : tid.block < highWater.length) :
    Usable highWater forward (past forward tid) := by
  cases forward with
  | true => exact usable_after highWater tid
  | false => exact usable_before (by omega) (.inl inside)

end ScanCursor

/-! ## Places that are left -/

/-- A cursor has not passed a tid. -/
def notPassed (forward : Bool) (cursor : ScanCursor) (tid : Tid) : Bool :=
  if forward then cursor.tid ≤ tid else tid ≤ cursor.tid

/-- The places that are still to come. -/
def placesLeft (places : List Tid) (forward : Bool) (cursor : ScanCursor) : List Tid :=
  (inDirection forward places).filter (notPassed forward cursor)

variable {forward : Bool} {tid other : Tid} {cursor : ScanCursor}

theorem inDirection_sorted {places : List Tid} (sorted : places.Pairwise (· < ·)) :
    (inDirection forward places).Pairwise (Precedes forward) := by
  cases forward with
  | true => exact sorted
  | false => exact pairwise_reverse.mpr sorted

theorem notPassed_forward : notPassed true cursor tid = true ↔ cursor.tid ≤ tid := decide_eq_true_iff

theorem notPassed_backward : notPassed false cursor tid = true ↔ tid ≤ cursor.tid :=
  decide_eq_true_iff

theorem notPassed_past (numbered : other.Numbered) :
    notPassed forward (.past forward tid) other = true ↔ Precedes forward tid other := by
  cases forward with
  | true => exact notPassed_forward.trans (by
      rw [← not_lt, ScanCursor.past, if_pos rfl, ScanCursor.lt_after numbered, not_le]
      rfl)
  | false => exact notPassed_backward.trans (ScanCursor.le_before numbered tid)

theorem notPassed_of_precedes (here : notPassed forward cursor tid = true)
    (order : Precedes forward tid other) :
    notPassed forward cursor other = true := by
  cases forward with
  | true => exact decide_eq_true ((of_decide_eq_true here).trans (le_of_lt order))
  | false => exact decide_eq_true ((le_of_lt order).trans (of_decide_eq_true here))

/-- Past the next place, the others are left. -/
theorem placesLeft_past {places rest : List Tid} (sorted : places.Pairwise (· < ·))
    (numbered : ∀ tid ∈ places, tid.Numbered)
    (left : placesLeft places forward cursor = tid :: rest) :
    placesLeft places forward (.past forward tid) = rest := by
  have here (other : Tid) (mem : other ∈ tid :: rest) :
      other ∈ inDirection forward places ∧ notPassed forward cursor other = true :=
    mem_filter.mp (show other ∈ placesLeft places forward cursor from left ▸ mem)
  have known (other : Tid) (mem : other ∈ inDirection forward places) : other.Numbered :=
    numbered other (mem_inDirection.mp mem)
  have order : (tid :: rest).Pairwise (Precedes forward) :=
    left ▸ (inDirection_sorted sorted).filter _
  have first := here tid (mem_cons_self ..)
  -- What is not passed by the cursor past `tid` was not passed by the first one.
  have twice : placesLeft places forward (.past forward tid) =
      (placesLeft places forward cursor).filter (notPassed forward (.past forward tid)) := by
    unfold placesLeft
    rw [List.filter_filter]
    refine filter_congr fun other mem => ?_
    cases good : notPassed forward (.past forward tid) other with
    | false => rfl
    | true =>
      have later := (notPassed_past (known other mem)).mp good
      rw [notPassed_of_precedes first.2 later, Bool.and_self]
  rw [twice, left, filter_cons_of_neg, filter_eq_self.mpr]
  · intro other mem
    exact (notPassed_past (known other (here other (.tail _ mem)).1)).mpr
      ((pairwise_cons.mp order).1 other mem)
  · rw [notPassed_past (known tid first.1)]
    cases forward <;> exact lt_irrefl tid

/-- The loop of a scan finds the first place that leads to a row. -/
theorem scanLoop_eq {places : List Tid} {candidate : ScanCursor → Option Tid}
    {visible : Tid → Option VisibleTuple} (sorted : places.Pairwise (· < ·))
    (numbered : ∀ tid ∈ places, tid.Numbered)
    (next : ∀ tid ∈ places, candidate (.past forward tid) =
      (placesLeft places forward (.past forward tid)).head?) {fuel : Nat}
    (first : candidate cursor = (placesLeft places forward cursor).head?)
    (enough : (placesLeft places forward cursor).length < fuel) :
    scanLoop candidate visible forward fuel cursor =
      (placesLeft places forward cursor).findSome? visible := by
  induction fuel generalizing cursor with
  | zero => omega
  | succ fuel ih =>
    unfold scanLoop
    rw [first]
    cases left : placesLeft places forward cursor with
    | nil => rfl
    | cons tid rest =>
      have mem : tid ∈ places := mem_inDirection.mp (mem_filter.mp
        (show tid ∈ placesLeft places forward cursor from left ▸ mem_cons_self ..)).1
      have after := placesLeft_past sorted numbered left
      simp only [head?_cons, findSome?_cons]
      cases visible tid with
      | some found => rfl
      | none =>
        rw [left, length_cons] at enough
        have last := ih (next tid mem) (by rw [after]; omega)
        rw [after] at last
        exact last

/-- The first place that is left is the first of the places that were not passed. -/
theorem placesLeft_head? {places : List Tid} (forward : Bool) (cursor : ScanCursor) :
    (placesLeft places forward cursor).head? =
      (inDirection forward places).find? (notPassed forward cursor) := by
  rw [placesLeft, head?_filter]

/-! ## Candidates within the high water -/

theorem within_iff :
    tidBeyondHighWater tid highWater = false ↔
      ∃ lines, highWater[tid.block]? = some lines ∧ tid.offset ≤ lines := by
  unfold tidBeyondHighWater
  cases highWater[tid.block]? <;> simp

theorem block_lt_of_within (within : tidBeyondHighWater tid highWater = false) :
    tid.block < highWater.length := by
  obtain ⟨lines, there, -⟩ := within_iff.mp within
  exact (List.getElem?_eq_some_iff.mp there).1

/-- No line within the high water comes after the last line. -/
theorem le_lastLine (line : 0 < tid.offset) (within : tidBeyondHighWater tid highWater = false) :
    ∃ last, lastLine highWater = some last ∧ tid ≤ last := by
  obtain ⟨lines, there, few⟩ := within_iff.mp within
  have entry : (lines, tid.block) ∈ highWater.zipIdx.reverse := by
    rw [mem_reverse, mem_zipIdx_iff_getElem?]
    exact there
  have order : highWater.zipIdx.reverse.Pairwise fun a b => b.2 < a.2 := by
    rw [pairwise_reverse, ← pairwise_map (f := Prod.snd) (R := (· < ·)),
      zipIdx_map_snd]
    exact pairwise_lt_range'
  unfold lastLine
  cases found : highWater.zipIdx.reverse.find? fun entry => decide (0 < entry.1) with
  | none =>
    have empty := find?_eq_none.mp found _ entry
    simp only [decide_eq_true_eq] at empty
    omega
  | some last =>
    refine ⟨_, rfl, ?_⟩
    obtain ⟨-, before, after, split, refused⟩ := find?_eq_some_iff_append.mp found
    rw [split, mem_append, mem_cons] at entry
    rw [split, pairwise_append, pairwise_cons] at order
    rw [Tid.le_def]
    rcases entry with early | same | late
    · have empty := refused _ early
      simp only [Bool.not_eq_true', decide_eq_false_iff_not] at empty
      omega
    · rw [← same]
      exact .inr ⟨rfl, few⟩
    · exact .inl (order.2.1.1 _ late)

/-- A backward search starts at the last line or at its cursor. -/
theorem backwardStart {stop : Option Tid} (usable : cursor.Usable highWater false) {places : List Tid}
    (numbered : ∀ tid ∈ places, tid.Numbered)
    (last : cursor.block = maxBlock → ∀ tid ∈ places, ∃ line, stop = some line ∧ tid ≤ line)
    (inner : cursor.block ≠ maxBlock → stop = if cursor.offset = 0 then none else some cursor.tid) :
    (stop = none ∧ placesLeft places false cursor = []) ∨
      ∃ line, stop = some line ∧ ∀ tid ∈ places, tid ≤ line ↔ notPassed false cursor tid = true := by
  by_cases start : cursor.block = maxBlock
  · cases stop with
    | none =>
      refine .inl ⟨rfl, filter_eq_nil_iff.mpr fun tid mem => ?_⟩
      obtain ⟨line, found, -⟩ := last start tid (mem_inDirection.mp mem)
      cases found
    | some line =>
      refine .inr ⟨line, rfl, fun tid mem => ?_⟩
      obtain ⟨line', found, below⟩ := last start tid mem
      cases found
      have := (numbered tid mem).block
      refine iff_of_true below (notPassed_backward.mpr ?_)
      simp only [ScanCursor.tid, Tid.le_def]
      omega
  · by_cases first : cursor.offset = 0
    · refine .inl ⟨(inner start).trans (if_pos first), filter_eq_nil_iff.mpr fun tid mem => ?_⟩
      have line := (numbered tid (mem_inDirection.mp mem)).line
      have block := usable.1 first
      simp only [notPassed_backward, ScanCursor.tid, Tid.le_def]
      omega
    · exact .inr ⟨_, (inner start).trans (if_neg first), fun tid mem => notPassed_backward.symm⟩

/-- Where a search starts it has passed nothing that it leaves out. -/
theorem startTid_spec (usable : cursor.Usable highWater forward) {places : List Tid}
    (numbered : ∀ tid ∈ places, tid.Numbered)
    (within : ∀ tid ∈ places, tidBeyondHighWater tid highWater = false) :
    (startTid forward cursor highWater = none ∧ placesLeft places forward cursor = []) ∨
      ∃ start, startTid forward cursor highWater = some start ∧ ∀ tid ∈ places,
        accepts forward start highWater tid = true ↔ notPassed forward cursor tid = true := by
  cases forward with
  | true =>
    have line : cursor.offset ≠ 0 := usable
    by_cases outside : highWater.length ≤ cursor.block
    · refine .inl ⟨by simp [startTid, scanForwardStartTid, outside], ?_⟩
      refine filter_eq_nil_iff.mpr fun tid mem => ?_
      have inside := block_lt_of_within (within tid (mem_inDirection.mp mem))
      simp only [notPassed_forward, ScanCursor.tid, Tid.le_def]
      omega
    · refine .inr ⟨cursor.tid, by simp [startTid, scanForwardStartTid, outside, line], ?_⟩
      exact fun tid mem => by simp [accepts, reaches, notPassed, within tid mem]
  | false =>
    have inside : cursor.block < highWater.length ∨ cursor.block = maxBlock := usable.2
    have start := @backwardStart _ _ (scanBackwardEndTid cursor highWater) usable _ numbered
      (fun start tid mem => by
        rw [scanBackwardEndTid, if_pos start]
        exact le_lastLine (numbered tid mem).line (within tid mem))
      (fun start => by simp [scanBackwardEndTid, start, not_le.mpr (inside.resolve_right start)])
    refine start.imp id ?_
    rintro ⟨stop, started, unpassed⟩
    refine ⟨stop, started, fun tid mem => ?_⟩
    rw [← unpassed tid mem]
    simp [accepts, recedes, within tid mem]

/-- The places of these tids that are within the high water, in order. -/
def placesOf (tids : List Tid) (highWater : HighWaterOffsets) : List Tid :=
  (OrdSet.ofList tids).elems.filter fun tid => !tidBeyondHighWater tid highWater

theorem placesOf_sorted (tids : List Tid) (highWater : HighWaterOffsets) :
    (placesOf tids highWater).Pairwise (· < ·) := (OrdSet.ofList tids).sorted.filter _

theorem mem_placesOf {tids : List Tid} :
    tid ∈ placesOf tids highWater ↔ tid ∈ tids ∧ tidBeyondHighWater tid highWater = false := by
  simp [placesOf, ← OrdSet.mem_def]

theorem length_placesOf (tids : List Tid) (highWater : HighWaterOffsets) :
    (placesOf tids highWater).length ≤ tids.length :=
  (length_filter_le _ _).trans (OrdSet.length_ofList_le tids)

section Walk

variable {base inserted : List Tid} {highWater : HighWaterOffsets} {cursor : ScanCursor}
  {committed : Tid → Option Tid}
  (first : ∀ start, First forward
    (fun tid => tid ∈ base ∧ accepts forward start highWater tid = true) (committed start))
include first

/-- The first committed candidate and then a walk over own rows: the first place
    of all of them. -/
theorem walk_eq (usable : cursor.Usable highWater forward)
    (numbered : ∀ tid ∈ placesOf (base ++ inserted) highWater, tid.Numbered) :
    ((startTid forward cursor highWater).bind fun start =>
        inserted.foldl (pick forward start highWater) (committed start)) =
      (placesLeft (placesOf (base ++ inserted) highWater) forward cursor).head? := by
  rcases startTid_spec usable numbered fun tid mem => (mem_placesOf.mp mem).2
    with ⟨stopped, none_⟩ | ⟨start, started, unpassed⟩
  · rw [stopped, none_]
    rfl
  · rw [started, placesLeft_head?]
    refine ((first start).foldl inserted).unique
      (((First.find? ((placesOf_sorted _ _).imp le_of_lt) _)).congr fun tid => ?_)
    have here := unpassed tid
    have far := @accepts_within forward start tid highWater
    rw [mem_placesOf, mem_append] at here ⊢
    tauto

theorem walk_mem {tid : Tid} (found : ((startTid forward cursor highWater).bind fun start =>
      inserted.foldl (pick forward start highWater) (committed start)) = some tid) :
    tid ∈ placesOf (base ++ inserted) highWater := by
  obtain ⟨start, -, found⟩ := bind_eq_some_iff.mp found
  have last : First forward _ (some tid) := found ▸ (first start).foldl inserted
  rw [mem_placesOf, mem_append]
  rcases last.1 with ⟨mem, accepted⟩ | ⟨mem, accepted⟩
  · exact ⟨.inl mem, accepts_within accepted⟩
  · exact ⟨.inr mem, accepts_within accepted⟩

end Walk

section Candidates

variable {relation : RelationStorage} {overlays : Overlays} {highWater : HighWaterOffsets}
  {forward : Bool} {cursor : ScanCursor} {tid : Tid}

/-- A search among own rows, in either direction. -/
theorem nextAny_walk : overlays.nextAnyCandidateTid highWater forward cursor =
    (startTid forward cursor highWater).bind fun start =>
      overlays.allInserted.foldl (pick forward start highWater) none := by
  cases forward <;> rfl

theorem nextAny_eq (usable : cursor.Usable highWater forward)
    (numbered : ∀ tid ∈ placesOf overlays.allInserted highWater, tid.Numbered) :
    overlays.nextAnyCandidateTid highWater forward cursor =
      (placesLeft (placesOf overlays.allInserted highWater) forward cursor).head? :=
  nextAny_walk.trans (@walk_eq _ [] _ _ _ _ (fun _ => .nothing _) usable numbered)

/-- The first of the live tids and roots that a search accepts. -/
theorem committedCandidate_first (accepts : Tid → Bool) :
    First forward (fun tid => tid ∈ relation.liveTids.elems ++ relation.hotRedirectRoots.elems ∧
        accepts tid = true)
      (firstOfBoth forward ((inDirection forward relation.liveTids.elems).find? accepts)
        ((inDirection forward relation.hotRedirectRoots.elems).find? accepts)) := by
  refine ((First.find? (relation.liveTids.sorted.imp le_of_lt) accepts).both
    (First.find? (relation.hotRedirectRoots.sorted.imp le_of_lt) accepts)).congr fun tid => ?_
  rw [mem_append]
  tauto

theorem nextCandidate_walk : relation.nextCandidateTid overlays highWater forward cursor =
    (startTid forward cursor highWater).bind fun start =>
      overlays.allInserted.foldl (pick forward start highWater)
        (firstOfBoth forward
          ((inDirection forward relation.liveTids.elems).find? (accepts forward start highWater))
          ((inDirection forward relation.hotRedirectRoots.elems).find?
            (accepts forward start highWater))) := by
  cases forward <;> rfl

theorem nextCandidate_eq (usable : cursor.Usable highWater forward)
    (numbered : ∀ tid ∈ placesOf (relation.liveTids.elems ++ relation.hotRedirectRoots.elems ++
      overlays.allInserted) highWater, tid.Numbered) :
    relation.nextCandidateTid overlays highWater forward cursor =
      (placesLeft (placesOf (relation.liveTids.elems ++ relation.hotRedirectRoots.elems ++
        overlays.allInserted) highWater) forward cursor).head? :=
  nextCandidate_walk.trans (walk_eq (fun _ => committedCandidate_first _) usable numbered)

theorem nextAny_mem (found : overlays.nextAnyCandidateTid highWater forward cursor = some tid) :
    tid ∈ placesOf overlays.allInserted highWater :=
  @walk_mem _ [] _ _ _ _ (fun _ => .nothing _) _ (nextAny_walk.symm.trans found)

theorem nextOwn_mem (found : overlays.nextCandidateTid highWater forward cursor = some tid) :
    tid ∈ placesOf overlays.allInserted highWater := by
  unfold Overlays.nextCandidateTid at found
  split at found
  · rename_i overlay
    rcases or_eq_some_iff.mp found with single | ⟨-, any⟩
    · unfold nextSingleOverlayCandidateTid at single
      dsimp only at single
      rw [ite_none_left_eq_some] at single
      obtain ⟨-, single⟩ := single
      rw [mem_placesOf, allInserted, reverse_singleton, flatMap_singleton]
      split at single
      · obtain ⟨start, -, here⟩ := bind_eq_some_iff.mp single
        exact ⟨mem_of_mem_drop (mem_of_find?_eq_some here), by
          simpa using find?_some here⟩
      · obtain ⟨stop, -, here⟩ := bind_eq_some_iff.mp single
        exact ⟨mem_of_mem_take (mem_reverse.mp (mem_of_find?_eq_some here)), by
          simpa using find?_some here⟩
    · exact nextAny_mem any
  · exact nextAny_mem found

theorem nextCandidate_mem
    (found : relation.nextCandidateTid overlays highWater forward cursor = some tid) :
    tid ∈ placesOf (relation.liveTids.elems ++ relation.hotRedirectRoots.elems ++ overlays.allInserted)
      highWater :=
  walk_mem (fun _ => committedCandidate_first _) (nextCandidate_walk.symm.trans found)

end Candidates

/-! ## The rows of a scan -/

namespace ScanState

section Order

variable (scan : ScanState) (relation : RelationStorage) (overlays : Overlays)

/-- The places that a scan visits. -/
def places : List Tid :=
  if !scan.hasVisibilityDeltas then relation.liveTids.elems
  else if scan.overlayOnly then placesOf overlays.allInserted scan.highWater
  else placesOf (relation.liveTids.elems ++ relation.hotRedirectRoots.elems ++ overlays.allInserted)
    scan.highWater

/-- The row that a place leads to. -/
def visibleAt (tid : Tid) : Option VisibleTuple :=
  if !scan.hasVisibilityDeltas then relation.committedTuple scan.highWater tid
  else if scan.overlayOnly then overlays.visibleCandidate scan.highWater scan.snapshotCurcid tid
  else relation.visibleCandidate overlays scan.highWater scan.snapshotCurcid tid

/-- The rows of a scan, in the order of their places. -/
def order (natts : Nat) : List ScannedRow :=
  (scan.places relation overlays).filterMap fun tid =>
    (scan.visibleAt relation overlays tid).bind fun found => found.copy found.cursorTid natts

/-- What a scan over unchanged storage relies on: its places can be stood on and
    are within its high water, and a search among own rows of one level finds
    them in order. -/
structure Scannable : Prop where
  numbered : ∀ tid ∈ scan.places relation overlays, tid.Numbered
  within : ∀ tid ∈ scan.places relation overlays, tidBeyondHighWater tid scan.highWater = false
  ascending : scan.hasVisibilityDeltas = true → scan.overlayOnly = true → overlays.Ascending

end Order

variable {scan : ScanState} {relation : RelationStorage} {overlays : Overlays} {natts : Nat}
  {forward : Bool} {cursor : ScanCursor} {tid : Tid} {found : VisibleTuple}

theorem places_sorted : (scan.places relation overlays).Pairwise (· < ·) := by
  unfold places
  split
  · exact relation.liveTids.sorted
  · split <;> exact placesOf_sorted _ _

theorem findSome?_of_isSome {α β : Type*} {f : α → Option β} {items : List α}
    (all : ∀ item ∈ items, (f item).isSome = true) : items.findSome? f = items.head?.bind f := by
  cases items with
  | nil => rfl
  | cons item rest =>
    obtain ⟨value, found⟩ := isSome_iff_exists.mp (all item (mem_cons_self ..))
    simp [found]

/-- A search that starts where nothing was passed that it leaves out. -/
theorem find?_left {start : Option Tid} {places : List Tid} {accepts : Tid → Tid → Bool}
    (spec : (start = none ∧ placesLeft places forward cursor = []) ∨
      ∃ first, start = some first ∧ ∀ tid ∈ places,
        accepts first tid = true ↔ notPassed forward cursor tid = true) :
    (start.bind fun first => (inDirection forward places).find? (accepts first)) =
      (placesLeft places forward cursor).head? := by
  rcases spec with ⟨rfl, none_⟩ | ⟨first, rfl, unpassed⟩
  · rw [none_]
    rfl
  · rw [bind_some, ← head?_filter, placesLeft]
    exact congrArg head? (filter_congr fun tid mem =>
      Bool.eq_iff_iff.mpr (unpassed tid (mem_inDirection.mp mem)))

/-- No live tid comes after the last line of the last block. -/
theorem le_getLast? {highWater : HighWaterOffsets}
    (within : tidBeyondHighWater tid highWater = false) :
    ∃ line, (highWater.getLast?.map fun offset => (⟨highWater.length - 1, offset⟩ : Tid)) =
      some line ∧ tid ≤ line := by
  obtain ⟨lines, there, few⟩ := within_iff.mp within
  have inside := (List.getElem?_eq_some_iff.mp there).1
  rw [getLast?_eq_getElem?, getElem?_eq_getElem (by omega)]
  refine ⟨_, rfl, Tid.le_def.mpr ?_⟩
  by_cases edge : tid.block = highWater.length - 1
  · rw [edge, getElem?_eq_getElem (by omega)] at there
    exact .inr ⟨edge, few.trans_eq (Option.some.inj there).symm⟩
  · exact .inl (by dsimp only; omega)

/-- The live tids of a relation are read where they are. -/
theorem nextCommitted_eq (sound : relation.Sound) (plain : scan.hasVisibilityDeltas = false)
    (scannable : scan.Scannable relation overlays) (usable : cursor.Usable scan.highWater forward) :
    relation.nextCommittedTupleSlice scan.highWater forward cursor =
      (placesLeft (scan.places relation overlays) forward cursor).findSome?
        (scan.visibleAt relation overlays) := by
  have numbered := scannable.numbered
  have within := scannable.within
  have places : scan.places relation overlays = relation.liveTids.elems := by simp [places, plain]
  have visible : scan.visibleAt relation overlays = relation.committedTuple scan.highWater := by
    funext tid
    simp [visibleAt, plain]
  rw [places] at numbered within
  rw [places, visible, findSome?_of_isSome]
  · rw [nextCommittedTupleSlice]
    cases forward with
    | true =>
      rw [if_pos rfl, ← Option.bind_assoc, ← find?_left]
      · rfl
      · refine (startTid_spec usable numbered within).imp id ?_
        rintro ⟨start, started, same⟩
        refine ⟨start, started, fun tid mem => ?_⟩
        simpa [accepts, reaches, within tid mem] using same tid mem
    | false =>
      rw [if_neg Bool.false_ne_true]
      dsimp only
      rw [← Option.bind_assoc, ← find?_left]
      · rfl
      · simpa using backwardStart usable numbered
          (fun start tid mem => by rw [if_pos start]; exact le_getLast? (within tid mem)) (if_neg ·)
  · intro tid mem
    have live := mem_inDirection.mp (mem_filter.mp mem).1
    obtain ⟨tuple, row⟩ := (sound.live tid).mp live
    simp [committedTuple, within tid live, tupleSlice_eq, row,
      Page.readable]

/-- A walk over the places ends. -/
theorem length_places : (scan.places relation overlays).length < relation.scanFuel overlays := by
  have own := length_placesOf overlays.allInserted scan.highWater
  have all := length_placesOf (relation.liveTids.elems ++ relation.hotRedirectRoots.elems ++
    overlays.allInserted) scan.highWater
  simp only [length_append] at all
  unfold places scanFuel
  split
  · omega
  · split <;> omega

/-- A scan finds the first place that leads to a row. -/
theorem nextSlice_eq (sound : relation.Sound) (scannable : scan.Scannable relation overlays)
    (usable : cursor.Usable scan.highWater forward) :
    scan.nextSlice relation overlays forward cursor =
      (placesLeft (scan.places relation overlays) forward cursor).findSome?
        (scan.visibleAt relation overlays) := by
  have numbered := scannable.numbered
  have within := scannable.within
  have past (tid : Tid) (mem : tid ∈ scan.places relation overlays) :
      ScanCursor.Usable scan.highWater forward (.past forward tid) :=
    ScanCursor.usable_past (block_lt_of_within (within tid mem))
  have short : (placesLeft (scan.places relation overlays) forward cursor).length ≤
      (scan.places relation overlays).length := by
    refine (length_filter_le _ _).trans ?_
    cases forward <;> simp [inDirection]
  unfold nextSlice
  cases deltas : scan.hasVisibilityDeltas with
  | false => exact nextCommitted_eq sound deltas scannable usable
  | true =>
    simp only [Bool.not_true, Bool.false_eq_true, if_false]
    cases only : scan.overlayOnly with
    | true =>
      have places : scan.places relation overlays = placesOf overlays.allInserted scan.highWater := by
        simp [places, deltas, only]
      have visible : scan.visibleAt relation overlays =
          overlays.visibleCandidate scan.highWater scan.snapshotCurcid := by
        funext tid
        simp [visibleAt, deltas, only]
      rw [places] at numbered past short ⊢
      have candidate (cursor : ScanCursor) (usable : cursor.Usable scan.highWater forward) :
          overlays.nextCandidateTid scan.highWater forward cursor =
            (placesLeft (placesOf overlays.allInserted scan.highWater) forward cursor).head? := by
        rw [← nextAny_eq usable numbered]
        unfold Overlays.nextCandidateTid
        split
        · rename_i overlay
          exact nextSingle_or_any (scannable.ascending deltas only overlay rfl) _ _ _
        · rfl
      rw [if_pos rfl, visible]
      exact scanLoop_eq (placesOf_sorted _ _) numbered (fun tid mem => candidate _ (past tid mem))
        (candidate cursor usable) (by have := length_placesOf overlays.allInserted scan.highWater; omega)
    | false =>
      have places : scan.places relation overlays = placesOf (relation.liveTids.elems ++
          relation.hotRedirectRoots.elems ++ overlays.allInserted) scan.highWater := by
        simp [places, deltas, only]
      have visible : scan.visibleAt relation overlays =
          relation.visibleCandidate overlays scan.highWater scan.snapshotCurcid := by
        funext tid
        simp [visibleAt, deltas, only]
      rw [places] at numbered past short ⊢
      have few := length_placesOf (relation.liveTids.elems ++ relation.hotRedirectRoots.elems ++
        overlays.allInserted) scan.highWater
      simp only [length_append] at few
      rw [if_neg Bool.false_ne_true, visible]
      refine scanLoop_eq (placesOf_sorted _ _) numbered
        (fun tid mem => nextCandidate_eq (past tid mem) numbered)
        (nextCandidate_eq usable numbered) ?_
      unfold scanFuel
      omega

/-- A row is returned for the place it was found from. -/
theorem visibleAt_cursorTid (seen : scan.visibleAt relation overlays tid = some found) :
    found.cursorTid = tid := by
  unfold visibleAt at seen
  split at seen
  · exact (committedTuple_found seen).cursorTid
  · split at seen
    · exact (visibleCandidate_found seen).cursorTid
    · exact (visibleCandidate_found seen).cursorTid

theorem rowAt_cursorTid {row : ScannedRow}
    (made : ((scan.visibleAt relation overlays tid).bind fun found =>
      found.copy found.cursorTid natts) = some row) : row.cursorTid = tid := by
  obtain ⟨found, seen, copied⟩ := bind_eq_some_iff.mp made
  obtain ⟨values, -, rfl⟩ := map_eq_some_iff.mp copied
  exact visibleAt_cursorTid seen

theorem order_places {row : ScannedRow} (mem : row ∈ scan.order relation overlays natts) :
    row.cursorTid ∈ scan.places relation overlays := by
  obtain ⟨tid, place, made⟩ := mem_filterMap.mp mem
  rw [rowAt_cursorTid made]
  exact place

/-- The rows of a scan are in the order of their places. -/
theorem order_sorted : (scan.order relation overlays natts).Pairwise fun row other =>
    row.cursorTid < other.cursorTid := by
  refine List.Pairwise.filterMap _ (fun tid other before row made row' made' => ?_) places_sorted
  rw [rowAt_cursorTid made, rowAt_cursorTid made']
  exact before

theorem length_order : (scan.order relation overlays natts).length < relation.scanFuel overlays :=
  (length_filterMap_le _ _).trans_lt length_places

theorem find?_copied {α β γ : Type*} {visible : α → Option β} {copy : β → Option γ} {place : γ → α}
    {accepts : α → Bool} (copies : ∀ a b, visible a = some b → ∃ c, copy b = some c ∧ place c = a)
    (items : List α) :
    ((items.filter accepts).findSome? visible).bind copy =
      (items.filterMap fun a => (visible a).bind copy).find? fun c => accepts (place c) := by
  induction items with
  | nil => rfl
  | cons item rest ih =>
    cases seen : visible item with
    | none =>
      have skipped : ((item :: rest).filter accepts).findSome? visible =
          (rest.filter accepts).findSome? visible := by
        cases good : accepts item with
        | true => rw [filter_cons_of_pos good, findSome?_cons, seen]
        | false => rw [filter_cons_of_neg (by simp [good])]
      rw [skipped, ih, filterMap_cons_none (by simp [seen])]
    | some found =>
      obtain ⟨copied, made, here⟩ := copies item found seen
      rw [filterMap_cons_some (b := copied) (by simp [seen, made])]
      cases good : accepts item with
      | true =>
        rw [filter_cons_of_pos good, findSome?_cons, seen, bind_some, made,
          find?_cons_of_pos (by rw [here, good])]
      | false =>
        rw [filter_cons_of_neg (by simp [good]), ih,
          find?_cons_of_neg (by simp [here, good])]

section

variable (written : Local.Written ⟨relation, overlays⟩)
include written

theorem visibleAt_encoded (seen : scan.visibleAt relation overlays tid = some found) :
    Encoded found.tuple := by
  unfold visibleAt at seen
  split at seen
  · exact written.relation.tupleSlice (committedTuple_found seen).tuple
  · split at seen
    · exact written.visibleSlice (visibleCandidate_found seen).tuple
    · exact written.sliceFor (visibleCandidate_found seen).tuple

/-- Rows are on numbered lines. -/
theorem visibleAt_line (seen : scan.visibleAt relation overlays tid = some found) :
    0 < found.outputTid.offset := by
  apply @Local.offset_pos_of_read relation overlays
  unfold visibleAt at seen
  split at seen
  · exact .inr ⟨_, (committedTuple_found seen).tuple⟩
  · split at seen
    · have read := (visibleCandidate_found seen).tuple
      rw [visibleSlice_eq written.levels] at read
      obtain ⟨includePending, -, read⟩ := bind_eq_some_iff.mp read
      rw [ite_none_right_eq_some] at read
      exact .inl read.2
    · have read := (visibleCandidate_found seen).tuple
      rw [sliceFor_eq] at read
      exact stackTupleSlice_read read

/-- The next row, if any, is the first one in order that was not passed. -/
theorem nextRow_eq (sound : relation.Sound) (scannable : scan.Scannable relation overlays)
    (usable : cursor.Usable scan.highWater forward) :
    ((scan.nextSlice relation overlays forward cursor).bind fun found =>
        found.copy found.cursorTid natts) =
      (inDirection forward (scan.order relation overlays natts)).find? fun row =>
        notPassed forward cursor row.cursorTid := by
  have direction : inDirection forward (scan.order relation overlays natts) =
      (inDirection forward (scan.places relation overlays)).filterMap fun tid =>
        (scan.visibleAt relation overlays tid).bind fun found => found.copy found.cursorTid natts := by
    cases forward <;> simp [inDirection, order, filterMap_reverse]
  rw [direction, nextSlice_eq sound scannable usable, placesLeft]
  apply find?_copied
  intro tid found seen
  obtain ⟨copied, copy⟩ := isSome_iff_exists.mp ((visibleAt_encoded written seen).copied natts)
  exact ⟨⟨found.outputTid, found.cursorTid, copied.1, copied.2⟩, by simp [VisibleTuple.copy, copy],
    visibleAt_cursorTid seen⟩

end

/-- What a scan finds from anywhere is at one of its places. -/
theorem nextSlice_place (seen : scan.nextSlice relation overlays forward cursor = some found) :
    ∃ tid ∈ scan.places relation overlays, scan.visibleAt relation overlays tid = some found := by
  unfold places visibleAt
  cases deltas : scan.hasVisibilityDeltas with
  | false => exact nextSlice_committed deltas seen
  | true =>
    simp only [nextSlice, deltas, Bool.not_true, Bool.false_eq_true, if_false] at seen ⊢
    cases only : scan.overlayOnly with
    | true =>
      simp only [only, if_true] at seen ⊢
      obtain ⟨tid, ⟨from_, candidate⟩, here⟩ := scanLoop_visible seen
      exact ⟨tid, nextOwn_mem candidate, here⟩
    | false =>
      simp only [only, Bool.false_eq_true, if_false] at seen ⊢
      obtain ⟨tid, ⟨from_, candidate⟩, here⟩ := scanLoop_visible seen
      exact ⟨tid, nextCandidate_mem candidate, here⟩

/-- A scan that has no rows finds none. -/
theorem nextSlice_of_empty (written : Local.Written ⟨relation, overlays⟩)
    (empty : scan.order relation overlays natts = []) :
    scan.nextSlice relation overlays forward cursor = none := by
  cases seen : scan.nextSlice relation overlays forward cursor with
  | none => rfl
  | some found =>
    obtain ⟨tid, place, here⟩ := nextSlice_place seen
    obtain ⟨copied, copy⟩ := isSome_iff_exists.mp ((visibleAt_encoded written here).copied natts)
    have mem : (⟨found.outputTid, found.cursorTid, copied.1, copied.2⟩ : ScannedRow) ∈
        scan.order relation overlays natts :=
      mem_filterMap.mpr ⟨tid, place, by simp [here, VisibleTuple.copy, copy]⟩
    rw [empty] at mem
    cases mem

/-! ## Where a scan stands -/

/-- Two scans that differ in their position only. -/
structure SameScan (scan scan' : ScanState) : Prop where
  highWater : scan'.highWater = scan.highWater
  deltas : scan'.hasVisibilityDeltas = scan.hasVisibilityDeltas
  overlayOnly : scan'.overlayOnly = scan.overlayOnly
  curcid : scan'.snapshotCurcid = scan.snapshotCurcid

namespace SameScan

variable {scan' scan'' : ScanState}

theorem refl (scan : ScanState) : SameScan scan scan := ⟨rfl, rfl, rfl, rfl⟩

theorem trans (first : SameScan scan scan') (second : SameScan scan' scan'') : SameScan scan scan'' :=
  ⟨second.1.trans first.1, second.2.trans first.2, second.3.trans first.3, second.4.trans first.4⟩

theorem places (same : SameScan scan scan') :
    scan'.places relation overlays = scan.places relation overlays := by
  unfold ScanState.places
  rw [same.deltas, same.overlayOnly, same.highWater]

theorem order (same : SameScan scan scan') :
    scan'.order relation overlays natts = scan.order relation overlays natts := by
  have visible : scan'.visibleAt relation overlays = scan.visibleAt relation overlays := by
    funext tid
    unfold visibleAt
    rw [same.deltas, same.overlayOnly, same.highWater, same.curcid]
  unfold ScanState.order
  rw [same.places, visible]

theorem scannable (same : SameScan scan scan') (scannable : scan.Scannable relation overlays) :
    scan'.Scannable relation overlays where
  numbered := same.places ▸ scannable.numbered
  within := by
    rw [same.places, same.highWater]
    exact scannable.within
  ascending := by
    rw [same.deltas, same.overlayOnly]
    exact scannable.ascending

end SameScan

/-- A scan stands where a cursor over its rows stands. -/
structure Stands (rows : List ScannedRow) (scan : ScanState) (place : ListCursor) : Prop where
  ahead : rows.filter (fun row => notPassed true scan.forwardCursor row.cursorTid) =
    rows.drop place.ahead
  behind : rows.filter (fun row => notPassed false scan.backwardCursor row.cursorTid) =
    rows.take place.behind
  inside : place.ahead ≤ rows.length ∧ place.behind ≤ rows.length
  forwardEnd : scan.forwardExhausted = true → place = .finish rows
  backwardEnd : scan.backwardExhausted = true → place = .origin
  forwardUsable : scan.forwardCursor.Usable scan.highWater true
  backwardUsable : rows ≠ [] → scan.backwardCursor.Usable scan.highWater false
  forwardBlock : rows ≠ [] → scan.forwardCursor.block < scan.highWater.length ∨
    scan.forwardCursor.block ≤ scan.highWater.length ∧ scan.forwardCursor.offset = 1

section Cut

variable {rows : List ScannedRow} {index : Nat} {row : ScannedRow} {accepts : ScannedRow → Bool}

/-- A list in ascending order, cut at one of its rows. -/
theorem order_cut (sorted : rows.Pairwise fun row other => row.cursorTid < other.cursorTid)
    (here : rows[index]? = some row) :
    rows = rows.take index ++ row :: rows.drop (index + 1) ∧
      (∀ other ∈ rows.take index, other.cursorTid < row.cursorTid) ∧
      ∀ other ∈ rows.drop (index + 1), row.cursorTid < other.cursorTid := by
  obtain ⟨bound, rfl⟩ := List.getElem?_eq_some_iff.mp here
  have split : rows = rows.take index ++ rows[index] :: rows.drop (index + 1) := by
    rw [← List.drop_eq_getElem_cons bound, List.take_append_drop]
  rw [split, List.pairwise_append, List.pairwise_cons] at sorted
  exact ⟨split, fun other earlier => sorted.2.2 other earlier _ (.head _), sorted.2.1.1⟩

theorem filter_past (sorted : rows.Pairwise fun row other => row.cursorTid < other.cursorTid)
    (here : rows[index]? = some row)
    (good : ∀ other ∈ rows, accepts other = true ↔ Precedes forward row.cursorTid other.cursorTid) :
    rows.filter accepts = if forward then rows.drop (index + 1) else rows.take index := by
  obtain ⟨split, earlier, later⟩ := order_cut sorted here
  have before (other) (mem : other ∈ rows.take index) := good other (mem_of_mem_take mem)
  have after (other) (mem : other ∈ rows.drop (index + 1)) := good other (mem_of_mem_drop mem)
  have self : ¬ accepts row = true := by
    rw [good row (mem_of_getElem? here)]
    cases forward <;> exact lt_irrefl _
  conv_lhs => rw [split]
  rw [filter_append, filter_cons_of_neg self]
  cases forward with
  | true =>
    rw [filter_eq_nil_iff.mpr fun other mem => (before other mem).not.mpr (lt_asymm (earlier other mem)),
      filter_eq_self.mpr fun other mem => (after other mem).mpr (later other mem)]
    rfl
  | false =>
    rw [filter_eq_self.mpr fun other mem => (before other mem).mpr (earlier other mem),
      filter_eq_nil_iff.mpr fun other mem => (after other mem).not.mpr (lt_asymm (later other mem))]
    exact append_nil _

end Cut

namespace Stands

variable {rows : List ScannedRow} {place : ListCursor} {index : Nat} {row : ScannedRow}

/-- On a row, by a step or by setting the position of its place. -/
theorem on (sorted : rows.Pairwise fun row other => row.cursorTid < other.cursorTid)
    (numbered : ∀ row ∈ rows, row.cursorTid.Numbered) (here : rows[index]? = some row)
    (within : row.cursorTid.block < scan.highWater.length)
    (ahead : scan.forwardCursor = .after row.cursorTid)
    (behind : scan.backwardCursor = .before row.cursorTid)
    (running : scan.forwardExhausted = false ∧ scan.backwardExhausted = false) :
    Stands rows scan (.on index) := by
  have bound := (List.getElem?_eq_some_iff.mp here).1
  have forth : ScanCursor.past true row.cursorTid = .after row.cursorTid := rfl
  have back : ScanCursor.past false row.cursorTid = .before row.cursorTid := rfl
  constructor
  · rw [ahead, ← forth]
    exact filter_past sorted here fun other mem => notPassed_past (numbered other mem)
  · rw [behind, ← back]
    exact filter_past sorted here fun other mem => notPassed_past (numbered other mem)
  · exact ⟨bound, bound.le⟩
  · simp [running.1]
  · simp [running.2]
  · rw [ahead, ← forth]
    exact ScanCursor.usable_past within
  · intro
    rw [behind, ← back]
    exact ScanCursor.usable_past within
  · intro
    rw [ahead]
    exact ScanCursor.after_block within

theorem finish_forward (stands : Stands rows scan place)
    (numbered : ∀ row ∈ rows, row.cursorTid.Numbered)
    (within : ∀ row ∈ rows, row.cursorTid.block < scan.highWater.length)
    (none_ : rows.length ≤ place.ahead) : Stands rows (scan.finish true) (.finish rows) := by
  have empty : rows.filter (fun row => notPassed true scan.forwardCursor row.cursorTid) = [] := by
    rw [stands.ahead, drop_eq_nil_of_le none_]
  have passed (row : ScannedRow) (mem : row ∈ rows) : row.cursorTid < scan.forwardCursor.tid := by
    have refused := filter_eq_nil_iff.mp empty row mem
    simpa [notPassed] using refused
  constructor
  · rw [ListCursor.finish, drop_length]
    exact empty
  · change rows.filter (fun row => notPassed false (.before scan.forwardCursor.tid) row.cursorTid) = _
    rw [ListCursor.finish, take_length]
    exact filter_eq_self.mpr fun row mem =>
      notPassed_backward.mpr ((ScanCursor.le_before (numbered row mem) _).mpr (passed row mem))
  · exact ⟨le_rfl, le_rfl⟩
  · exact fun _ => rfl
  · exact nofun
  · exact stands.forwardUsable
  · intro filled
    have block := stands.forwardBlock filled
    obtain ⟨row, mem⟩ := exists_mem_of_ne_nil rows filled
    exact ScanCursor.usable_before (Nat.zero_lt_of_lt (within row mem)) block
  · exact stands.forwardBlock

theorem finish_backward (stands : Stands rows scan place)
    (numbered : ∀ row ∈ rows, row.cursorTid.Numbered) (none_ : place.behind = 0) :
    Stands rows (scan.finish false) .origin := by
  have empty : rows.filter (fun row => notPassed false scan.backwardCursor row.cursorTid) = [] := by
    rw [stands.behind, none_, take_zero]
  have passed (row : ScannedRow) (mem : row ∈ rows) : scan.backwardCursor.tid < row.cursorTid := by
    have refused := filter_eq_nil_iff.mp empty row mem
    simpa [notPassed] using refused
  constructor
  · change rows.filter (fun row => notPassed true (.after scan.backwardCursor.tid) row.cursorTid) = _
    rw [ListCursor.origin, drop_zero]
    refine filter_eq_self.mpr fun row mem => notPassed_forward.mpr (not_lt.mp ?_)
    rw [ScanCursor.lt_after (numbered row mem)]
    exact not_le.mpr (passed row mem)
  · rw [ListCursor.origin, take_zero]
    exact empty
  · exact ⟨Nat.zero_le _, Nat.zero_le _⟩
  · exact nofun
  · exact fun _ => rfl
  · exact ScanCursor.usable_after scan.highWater scan.backwardCursor.tid
  · exact stands.backwardUsable
  · intro filled
    obtain ⟨row, mem⟩ := exists_mem_of_ne_nil rows filled
    obtain ⟨-, block⟩ : _ ∧ (scan.backwardCursor.block < scan.highWater.length ∨
      scan.backwardCursor.block = maxBlock) := stands.backwardUsable filled
    have later := passed row mem
    have below := (numbered row mem).block
    rw [Tid.lt_def] at later
    simp only [ScanCursor.tid] at later
    have inside : scan.backwardCursor.block < scan.highWater.length := by omega
    exact ScanCursor.after_block inside

/-- The tid of a row has the same rows before it as its place. -/
def Placed (rows : List ScannedRow) (row : ScannedRow) : Prop :=
  ∀ other ∈ rows, other.cursorTid < row.tid ↔ other.cursorTid < row.cursorTid

instance (rows : List ScannedRow) (row : ScannedRow) : Decidable (Placed rows row) :=
  inferInstanceAs (Decidable (∀ other ∈ rows, other.cursorTid < row.tid ↔ other.cursorTid < row.cursorTid))

theorem filter_eq_drop {accepts : ScannedRow → Bool}
    (upward : rows.Pairwise fun row other => accepts row = true → accepts other = true) :
    ∃ index ≤ rows.length, rows.filter accepts = rows.drop index := by
  induction rows with
  | nil => exact ⟨0, le_rfl, rfl⟩
  | cons row rest ih =>
    obtain ⟨later, upward⟩ := pairwise_cons.mp upward
    by_cases first : accepts row = true
    · refine ⟨0, Nat.zero_le _, filter_eq_self.mpr fun other mem => ?_⟩
      rcases mem_cons.mp mem with rfl | behind
      · exact first
      · exact later other behind first
    · obtain ⟨index, bound, same⟩ := ih upward
      refine ⟨index + 1, Nat.succ_le_succ bound, ?_⟩
      rw [filter_cons_of_neg first, same, drop_succ_cons]

/-- A scan that is set to the tid of a row goes on backwards from the row if no
    place lies between the two. -/
theorem scanSetPosition (sorted : rows.Pairwise fun row other => row.cursorTid < other.cursorTid)
    (numbered : ∀ row ∈ rows, row.cursorTid.Numbered) (here : rows[index]? = some row)
    (within : row.cursorTid.block < scan.highWater.length) (line : 0 < row.tid.offset)
    (placed : Placed rows row) :
    ∃ ahead, Stands rows (scan.scanSetPosition row.tid) ⟨ahead, index⟩ := by
  have mem := mem_of_getElem? here
  have earlier : row.tid ≤ row.cursorTid := not_lt.mp ((placed row mem).not.mpr (lt_irrefl _))
  have inside : row.tid.block < scan.highWater.length := by
    rw [Tid.le_def] at earlier
    omega
  have upward : rows.Pairwise fun row' other =>
      notPassed true (.after row.tid) row'.cursorTid = true →
        notPassed true (.after row.tid) other.cursorTid = true :=
    sorted.imp fun before passed => @notPassed_of_precedes true _ _ _ passed before
  obtain ⟨ahead, bound, same⟩ := filter_eq_drop upward
  have position : scan.scanSetPosition row.tid = { scan with
      forwardCursor := .after row.tid
      backwardCursor := .before row.tid
      forwardExhausted := false
      backwardExhausted := false } := if_neg line.ne'
  rw [position]
  refine ⟨ahead, same, ?_, ⟨bound, (List.getElem?_eq_some_iff.mp here).1.le⟩, ?_, ?_,
    ScanCursor.usable_after _ _, fun _ => ?_, fun _ => ScanCursor.after_block inside⟩
  · refine @filter_past false _ _ _ _ sorted here fun other among => ?_
    rw [notPassed_backward, ScanCursor.le_before (numbered other among), placed other among]
    rfl
  · exact nofun
  · exact nofun
  · exact ScanCursor.usable_before (Nat.zero_lt_of_lt inside) (.inl inside)

end Stands

/-! ## Steps of a scan -/

section Steps

variable (written : Local.Written ⟨relation, overlays⟩) (sound : relation.Sound)
  (scannable : scan.Scannable relation overlays) {row : ScannedRow} {place : ListCursor}

include scannable in
theorem order_numbered (mem : row ∈ scan.order relation overlays natts) :
    row.cursorTid.Numbered := scannable.numbered _ (order_places mem)

include scannable in
theorem order_within (mem : row ∈ scan.order relation overlays natts) :
    row.cursorTid.block < scan.highWater.length :=
  block_lt_of_within (scannable.within _ (order_places mem))

include written in
theorem order_line (mem : row ∈ scan.order relation overlays natts) :
    0 < row.tid.offset := by
  obtain ⟨tid, -, made⟩ := mem_filterMap.mp mem
  obtain ⟨found, seen, copied⟩ := bind_eq_some_iff.mp made
  obtain ⟨values, -, rfl⟩ := map_eq_some_iff.mp copied
  exact visibleAt_line written seen

include written sound scannable in
/-- The row that a step returns is the next one of the cursor. -/
theorem nextRow_stands (stands : Stands (scan.order relation overlays natts) scan place) :
    ((scan.nextSlice relation overlays forward (scan.cursor forward)).bind fun found =>
        found.copy found.cursorTid natts) =
      if forward then (scan.order relation overlays natts)[place.ahead]?
      else if place.behind = 0 then none
      else (scan.order relation overlays natts)[place.behind - 1]? := by
  by_cases empty : scan.order relation overlays natts = []
  · rw [nextSlice_of_empty written empty, empty]
    simp
  cases forward with
  | true =>
    have usable : (scan.cursor true).Usable scan.highWater true := stands.forwardUsable
    rw [nextRow_eq written sound scannable usable, ← head?_filter, if_pos rfl, ← head?_drop,
      ← stands.ahead]
    rfl
  | false =>
    have usable : (scan.cursor false).Usable scan.highWater false := stands.backwardUsable empty
    have left : ((scan.order relation overlays natts).filter fun row =>
        notPassed false (scan.cursor false) row.cursorTid) =
          (scan.order relation overlays natts).take place.behind := stands.behind
    rw [nextRow_eq written sound scannable usable, ← head?_filter, inDirection,
      if_neg Bool.false_ne_true, if_neg Bool.false_ne_true, filter_reverse, head?_reverse,
      left, getLast?_take]
    have inside := stands.inside.2
    split
    · rfl
    · rw [getElem?_eq_getElem (by omega), some_or]

include written sound scannable in
/-- A step of the scan is a step of the cursor over its rows. -/
theorem scanNext_stands (stands : Stands (scan.order relation overlays natts) scan place)
    (forward : Bool) :
    ∃ scan', scan.scanNext relation overlays natts forward =
        (scan', (place.next (scan.order relation overlays natts) (fun _ => true) forward).2.map
          (scan.reported relation)) ∧
      SameScan scan scan' ∧
      Stands (scan.order relation overlays natts) scan'
        (place.next (scan.order relation overlays natts) (fun _ => true) forward).1 := by
  have next : ((scan.nextSlice relation overlays forward (scan.cursor forward)).bind fun found =>
      found.copy found.cursorTid natts) = _ := nextRow_stands written sound scannable stands
  have numbered (row : ScannedRow) (mem : row ∈ scan.order relation overlays natts) :=
    order_numbered scannable mem
  have within (row : ScannedRow) (mem : row ∈ scan.order relation overlays natts) :=
    order_within scannable mem
  have sorted : (scan.order relation overlays natts).Pairwise _ := order_sorted
  generalize scan.order relation overlays natts = rows at *
  cases running : scan.exhausted forward with
  | true =>
    have stopped : scan.scanNext relation overlays natts forward = (scan, none) := by
      simp [scanNext, running]
    cases forward with
    | true =>
      have last := stands.forwardEnd running
      subst last
      rw [ListCursor.next_forward_end le_rfl]
      exact ⟨scan, stopped, .refl scan, stands⟩
    | false =>
      have first := stands.backwardEnd running
      subst first
      rw [ListCursor.next_backward_end rfl]
      exact ⟨scan, stopped, .refl scan, stands⟩
  | false =>
    cases found : scan.nextSlice relation overlays forward (scan.cursor forward) with
    | none =>
      have ended := @scanNext_end relation overlays natts scan forward running found
      rw [found, bind_none] at next
      cases forward with
      | true =>
        have past : rows.length ≤ place.ahead := getElem?_eq_none_iff.mp next.symm
        rw [ListCursor.next_forward_end past]
        exact ⟨_, ended, ⟨rfl, rfl, rfl, rfl⟩, stands.finish_forward numbered within past⟩
      | false =>
        have past : place.behind = 0 := by
          by_contra some_
          have inside := stands.inside.2
          rw [if_neg Bool.false_ne_true, if_neg some_, getElem?_eq_getElem (by omega)] at next
          cases next
        rw [ListCursor.next_backward_end past]
        exact ⟨_, ended, ⟨rfl, rfl, rfl, rfl⟩, stands.finish_backward numbered past⟩
    | some visible =>
      obtain ⟨row, copied, stepped⟩ := @scanNext_found relation overlays natts scan forward
        written visible running found
      rw [found, bind_some, copied] at next
      have placed : row.cursorTid = visible.cursorTid := by
        obtain ⟨values, -, rfl⟩ := map_eq_some_iff.mp copied
        rfl
      rw [stepped, ← placed]
      cases forward with
      | true =>
        have here : rows[place.ahead]? = some row := next.symm
        rw [ListCursor.next_forward_found here rfl]
        exact ⟨_, rfl, ⟨rfl, rfl, rfl, rfl⟩, .on sorted numbered here
          (within row (mem_of_getElem? here)) rfl rfl ⟨running, rfl⟩⟩
      | false =>
        obtain ⟨index, behind⟩ : ∃ index, place.behind = index + 1 := by
          cases behind : place.behind with
          | zero => simp [behind] at next
          | succ index => exact ⟨index, rfl⟩
        have here : rows[index]? = some row := by simpa [behind] using next.symm
        rw [ListCursor.next_backward_found behind here rfl]
        exact ⟨_, rfl, ⟨rfl, rfl, rfl, rfl⟩, .on sorted numbered here
          (within row (mem_of_getElem? here)) rfl rfl ⟨rfl, running⟩⟩

/-- Where a cursor stands after this many steps forward. -/
def afterForward (rows : List ScannedRow) (place : ListCursor) (count : Nat) : ListCursor :=
  if count = 0 then place
  else if place.ahead + count ≤ rows.length then .on (place.ahead + count - 1)
  else .finish rows

variable {rows : List ScannedRow}

theorem afterForward_on (more : place.ahead < rows.length) (count : Nat) :
    afterForward rows (.on place.ahead) count = afterForward rows place (count + 1) := by
  have one : place.ahead + 1 ≤ rows.length := more
  unfold afterForward ListCursor.on
  rcases Nat.eq_zero_or_pos count with rfl | positive
  · simp [one]
  · have some_ : ¬ count = 0 := by omega
    simp only [some_, Nat.succ_ne_zero, if_false]
    rw [show place.ahead + 1 + count = place.ahead + (count + 1) by omega]

theorem afterForward_finish (past : rows.length ≤ place.ahead) (count : Nat) :
    afterForward rows (.finish rows) count = afterForward rows place (count + 1) := by
  have beyond : ¬ place.ahead + (count + 1) ≤ rows.length := by omega
  unfold afterForward ListCursor.finish
  simp only [Nat.succ_ne_zero, if_false, beyond]
  split
  · rfl
  · rw [if_neg (by omega)]

include written sound scannable in
/-- Steps forward return the rows that are ahead. -/
theorem scanSingly_stands (stands : Stands (scan.order relation overlays natts) scan place)
    (count : Nat) :
    ∃ scan', scan.scanSingly relation overlays natts (replicate count true) =
        (scan', (((scan.order relation overlays natts).drop place.ahead).take count).map
          (scan.reported relation)) ∧
      SameScan scan scan' ∧
      Stands (scan.order relation overlays natts) scan'
        (afterForward (scan.order relation overlays natts) place count) := by
  induction count generalizing scan place with
  | zero => exact ⟨scan, by simp [scanSingly], .refl scan, stands⟩
  | succ count ih =>
    obtain ⟨next, stepped, same, there⟩ := scanNext_stands written sound scannable stands true
    have order : next.order relation overlays natts = scan.order relation overlays natts := same.order
    have reported : next.reported relation = scan.reported relation := by
      funext row
      rw [ScanState.reported, same.deltas, ScanState.reported]
    obtain ⟨last, rest, same', stands'⟩ := ih (same.scannable scannable) (order ▸ there)
    rw [order, reported] at rest
    rw [order] at stands'
    rw [replicate_succ, scanSingly, stepped]
    dsimp only
    rw [rest]
    refine ⟨last, ?_, same.trans same', ?_⟩
    all_goals
      generalize scan.order relation overlays natts = rows at *
      by_cases more : place.ahead < rows.length
    · have here : rows[place.ahead]? = some rows[place.ahead] := getElem?_eq_getElem more
      rw [ListCursor.next_forward_found here rfl, drop_eq_getElem_cons more]
      rfl
    · rw [ListCursor.next_forward_end (not_lt.mp more), drop_eq_nil_of_le (not_lt.mp more)]
      simp [ListCursor.finish]
    · have here : rows[place.ahead]? = some rows[place.ahead] := getElem?_eq_getElem more
      rw [ListCursor.next_forward_found here rfl] at stands'
      exact afterForward_on more count ▸ stands'
    · rw [ListCursor.next_forward_end (not_lt.mp more)] at stands'
      exact afterForward_finish (not_lt.mp more) count ▸ stands'

include written sound scannable in
/-- A batch is as many rows as there are ahead, up to its size. -/
theorem scanNextBatch_stands (stands : Stands (scan.order relation overlays natts) scan place)
    (size : Nat) :
    ∃ scan' batch, scan.scanNextBatch relation overlays natts true size = (scan', batch) ∧
      batch.map ScannedRow.output =
        (((scan.order relation overlays natts).drop place.ahead).take size).map ScannedRow.output ∧
      SameScan scan scan' ∧
      Stands (scan.order relation overlays natts) scan'
        (afterForward (scan.order relation overlays natts) place size) := by
  obtain ⟨scan', singles, same, there⟩ := scanSingly_stands written sound scannable stands size
  rw [scanNextBatch_singly written] at singles
  obtain ⟨left, rows⟩ := Prod.mk.inj singles
  refine ⟨scan', _, Prod.ext left rfl, ?_, same, there⟩
  have outputs := congrArg (List.map ScannedRow.output) rows
  simpa [Function.comp_def, reported_output] using outputs

end Steps

/-- A scan that was just opened stands at its start. -/
theorem opened_stands {highWater : HighWaterOffsets} {deltas overlayOnly : Bool}
    {curcid : Option Nat} {rows : List ScannedRow} (numbered : ∀ row ∈ rows, row.cursorTid.Numbered)
    (within : ∀ row ∈ rows, row.cursorTid.block < highWater.length) :
    Stands rows (opened highWater deltas overlayOnly curcid) (.start rows) := by
  constructor
  · rw [ListCursor.start, drop_zero]
    refine filter_eq_self.mpr fun row mem => ?_
    have := (numbered row mem).line
    simp only [notPassed_forward, opened, ScanCursor.forwardStart, ScanCursor.tid, Tid.le_def]
    omega
  · rw [ListCursor.start, take_length]
    refine filter_eq_self.mpr fun row mem => ?_
    have := (numbered row mem).block
    simp only [notPassed_backward, opened, ScanCursor.backwardStart, ScanCursor.tid, Tid.le_def]
    omega
  · exact ⟨Nat.zero_le _, le_rfl⟩
  · exact nofun
  · exact nofun
  · exact Nat.one_ne_zero
  · refine fun _ => ⟨fun zero => ?_, .inr rfl⟩
    simp [opened, ScanCursor.backwardStart, maxOffset] at zero
  · intro filled
    obtain ⟨row, mem⟩ := exists_mem_of_ne_nil rows filled
    exact .inl (Nat.zero_lt_of_lt (within row mem))

end ScanState

/-! ## Scans that were opened -/

/-- Counted lines of numbered blocks. -/
structure HighWaterOffsets.Measured (highWater : HighWaterOffsets) : Prop where
  blocks : highWater.length ≤ maxBlock
  lines : ∀ lines ∈ highWater, lines ≤ maxOffset

theorem lineCount_le (page : Page) : lineCount page ≤ maxOffset := by
  unfold lineCount
  split
  · assumption
  · exact Nat.zero_le _

section HighWater

variable {relation : RelationStorage} {overlay : RelationOverlay} {highWater : HighWaterOffsets}
  {page : Page}

theorem highWaterOffsets_measured (sized : relation.Sized) : relation.highWaterOffsets.Measured where
  blocks := by
    unfold highWaterOffsets
    rw [length_map]
    exact sized.blocks
  lines := by
    intro lines mem
    obtain ⟨page, -, rfl⟩ := mem_map.mp mem
    cases page with
    | none => exact Nat.zero_le _
    | some page => exact lineCount_le page

theorem extendHighWaterOffsets_measured (measured : highWater.Measured) (sized : overlay.Sized) :
    (overlay.extendHighWaterOffsets highWater).Measured := by
  unfold extendHighWaterOffsets
  refine foldlRecOn overlay.pendingPages _ measured fun highWater measured page mem => ?_
  constructor
  · have blocks := measured.blocks
    have small := (sized.pages page mem).1
    rw [length_modify, length_append, length_replicate]
    omega
  · intro lines among
    obtain ⟨block, found⟩ := mem_iff_getElem?.mp among
    rw [getElem?_modify] at found
    obtain ⟨before, there, rfl⟩ := map_eq_some_iff.mp found
    have short : before ≤ maxOffset := by
      rcases mem_append.mp (mem_of_getElem? there) with old | new
      · exact measured.lines before old
      · rw [(mem_replicate.mp new).2]
        exact Nat.zero_le _
    split
    · exact max_le short (lineCount_le page)
    · exact short

/-- Own pages only raise the high water. -/
theorem extendHighWaterOffsets_within {tid : Tid} (within : tidBeyondHighWater tid highWater = false) :
    tidBeyondHighWater tid (overlay.extendHighWaterOffsets highWater) = false := by
  unfold extendHighWaterOffsets
  refine List.foldlRecOn (motive := fun highWater => tidBeyondHighWater tid highWater = false)
    overlay.pendingPages _ within fun highWater within page _ => ?_
  obtain ⟨lines, there, short⟩ := within_iff.mp within
  have bound := (List.getElem?_eq_some_iff.mp there).1
  rw [within_iff]
  refine ⟨if page.block = tid.block then max lines (lineCount page) else lines, ?_, ?_⟩
  · rw [List.getElem?_modify, List.getElem?_append_left bound, there]
    rfl
  · split
    · exact short.trans (le_max_left ..)
    · exact short

end HighWater

namespace ScanState

variable {relation : RelationStorage} {overlays : Overlays}

theorem extended_measured {highWater : HighWaterOffsets} (measured : highWater.Measured)
    (levels : ∀ overlay ∈ overlays, overlay.Numbered) :
    (overlays.reverse.foldl extendHighWaterOffsets highWater).Measured :=
  foldlRecOn overlays.reverse _ measured fun _ measured overlay mem =>
    extendHighWaterOffsets_measured measured (levels overlay (mem_reverse.mp mem)).sized

/-- The live rows of a relation are within its high water. -/
theorem live_within (sound : relation.Sized) {tid : Tid} {entry : LinePointerState × Bytes}
    (row : relation.row tid = some entry) :
    tidBeyondHighWater tid relation.highWaterOffsets = false := by
  obtain ⟨page, filed, line⟩ := bind_eq_some_iff.mp row
  have short : page.linePointers.length ≤ maxOffset :=
    (sound.lines tid.block page filed).trans (by decide)
  have inside : tid.offset ≤ page.linePointers.length := by
    by_contra beyond
    have missing := Page.row_eq_none_iff.mpr (show tid.offset = 0 ∨ page.linePointers.length < tid.offset by omega)
    rw [missing] at line
    cases line
  rw [within_iff]
  refine ⟨lineCount page, ?_, ?_⟩
  · have filed : (relation.pages[tid.block]?).join = some page := filed
    obtain ⟨stored, there, rfl⟩ := bind_eq_some_iff.mp filed
    unfold highWaterOffsets
    rw [getElem?_map, there]
    rfl
  · rw [lineCount, if_pos short]
    exact inside

theorem scanBegin_fields (rowCount : Nat) (curcid : Option Nat) :
    ∃ highWater only, scanBegin relation overlays rowCount curcid =
        opened (overlays.reverse.foldl extendHighWaterOffsets highWater)
          overlays.hasVisibilityDeltas only curcid ∧
      (highWater = relation.highWaterOffsets ∨ highWater = [] ∧ overlays.hasVisibilityDeltas = true) := by
  unfold scanBegin
  dsimp only
  split
  · rename_i own
    exact ⟨[], true, rfl, .inr ⟨rfl, own.2.2⟩⟩
  · exact ⟨_, _, rfl, .inl rfl⟩

/-- A scan that is opened on numbered lines can be followed, unless it searches
    own rows that are out of order. -/
theorem scanBegin_scannable (numbered : Local.Numbered ⟨relation, overlays⟩) (sound : relation.Sound)
    {rowCount : Nat} {curcid : Option Nat}
    (ascending : overlays.hasVisibilityDeltas = true →
      (scanBegin relation overlays rowCount curcid).overlayOnly = true → overlays.Ascending) :
    (scanBegin relation overlays rowCount curcid).Scannable relation overlays := by
  obtain ⟨highWater, only, opens, base⟩ := @scanBegin_fields relation overlays rowCount curcid
  rw [opens] at ascending ⊢
  have measured : (overlays.reverse.foldl extendHighWaterOffsets highWater).Measured := by
    apply extended_measured _ numbered.levels
    rcases base with rfl | ⟨rfl, -⟩
    · exact highWaterOffsets_measured numbered.relation.sized
    · exact ⟨Nat.zero_le _, by simp⟩
  have line : ∀ tid ∈ relation.liveTids.elems ++ relation.hotRedirectRoots.elems ++ overlays.allInserted,
      0 < tid.offset := by
    intro tid mem
    rcases mem_append.mp mem with stored | own
    · rcases mem_append.mp stored with live | root
      · obtain ⟨tuple, row⟩ := (sound.live tid).mp live
        exact offset_pos_of_row row
      · exact numbered.relation.rooted.roots tid root
    · obtain ⟨overlay, level, among⟩ := mem_flatMap.mp own
      exact (numbered.levels overlay (mem_reverse.mp level)).rooted.inserted tid among
  have places : ∀ tid ∈ (opened (overlays.reverse.foldl extendHighWaterOffsets highWater)
      overlays.hasVisibilityDeltas only curcid).places relation overlays, 0 < tid.offset ∧
        tidBeyondHighWater tid
          (overlays.reverse.foldl extendHighWaterOffsets highWater) = false := by
    intro tid mem
    unfold ScanState.places at mem
    split at mem
    · rename_i committed
      have stored : highWater = relation.highWaterOffsets := by
        rcases base with stored | ⟨-, deltas⟩
        · exact stored
        · simp [opened, deltas] at committed
      obtain ⟨tuple, row⟩ := (sound.live tid).mp mem
      refine ⟨offset_pos_of_row row, ?_⟩
      rw [stored]
      exact foldlRecOn (motive := fun highWater => tidBeyondHighWater tid highWater = false)
        overlays.reverse _ (live_within numbered.relation.sized row)
        fun _ within _ _ => extendHighWaterOffsets_within within
    · split at mem
      · obtain ⟨own, within⟩ := mem_placesOf.mp mem
        exact ⟨line tid (mem_append_right _ own), within⟩
      · obtain ⟨among, within⟩ := mem_placesOf.mp mem
        exact ⟨line tid among, within⟩
  refine ⟨fun tid mem => ?_, fun tid mem => (places tid mem).2, ascending⟩
  obtain ⟨positive, within⟩ := places tid mem
  obtain ⟨lines, there, short⟩ := within_iff.mp within
  exact ⟨positive, short.trans (measured.lines lines (mem_of_getElem? there)),
    (block_lt_of_within within).trans_le measured.blocks⟩

end ScanState

end FastPg.Storage
