import FastPg.Index.Scan

/-! # Index scans as cursors

A general scan sorts its matches into the order of the index, each once, and is
a cursor over them: its index, its done flag and its last direction say where
the cursor stands. A probe forgets where it is once it has answered, so it is a
cursor only if there is nothing to find.
-/

namespace FastPg.Index

open List Option

variable {V : Type}

/-! ## The collected matches -/

theorem negate32_eq {n : Int} (negatable : n ≠ int32Min) : negate32 n = -n := if_neg negatable

theorem KeyColumn.cmp_lawful (column : KeyColumn V) : LawfulCompare column.cmp := by
  have order : LawfulCompare fun left right =>
      if column.desc then -column.order.compare left right else column.order.compare left right := by
    cases column.desc with
    | false => exact column.order.lawful
    | true => exact column.order.lawful.reverse
  have lawful := order.option (show (if column.nullsFirst then (-1 : Int) else 1) ≠ 0 by
    split <;> omega)
  have same : column.cmp = optionCompare (if column.nullsFirst then (-1 : Int) else 1)
      (fun left right =>
        if column.desc then -column.order.compare left right else column.order.compare left right) := by
    funext left right
    cases left with
    | none => cases right <;> rfl
    | some left =>
      cases right with
      | none =>
        simp only [KeyColumn.cmp, optionCompare]
        split <;> rfl
      | some right =>
        simp only [KeyColumn.cmp, optionCompare]
        rw [negate32_eq (column.order.negatable left right)]
        split
        · rfl
        · split <;> omega
  rw [same]
  exact lawful

theorem keyCmp_lawful (columns : List (KeyColumn V)) :
    ∀ index, LawfulCompare fun left right : Key V => keyCmp left right index columns := by
  induction columns with
  | nil => exact fun _ => LawfulCompare.constant
  | cons column rest ih =>
    intro index
    exact (column.cmp_lawful.comap fun key : Key V => key index).andThen (ih (index + 1))

/-- The comparison of row ids that breaks ties. -/
def rowIdCmp (left right : Nat) : Int :=
  if left < right then -1 else if right < left then 1 else 0

variable {left right : IndexMatch V} {rows : List (IndexMatch V)}

theorem rowIdCmp_lawful : LawfulCompare rowIdCmp := by
  constructor
  · intro a b
    unfold rowIdCmp
    split <;> split <;> omega
  · intro a b c
    unfold rowIdCmp
    split <;> split <;> split <;> omega

theorem matchCmp_lawful (columns : List (KeyColumn V)) : LawfulCompare (matchCmp columns) :=
  ((keyCmp_lawful columns 0).comap IndexMatch.values).andThen
    (rowIdCmp_lawful.comap IndexMatch.rowId)

variable {columns : List (KeyColumn V)}

theorem matchCmp_ne_zero (apart : right.rowId ≠ left.rowId) : matchCmp columns left right ≠ 0 := by
  unfold matchCmp
  dsimp only
  split
  · assumption
  · split
    · omega
    · split <;> omega

theorem keyCmp_of_matchCmp (less : matchCmp columns left right < 0) :
    keyCmp left.values right.values 0 columns ≤ 0 := by
  unfold matchCmp at less
  dsimp only at less
  split at less <;> omega

theorem sortMatches_pairwise (columns : List (KeyColumn V)) (rows : List (IndexMatch V)) :
    (sortMatches columns rows).Pairwise (matchCmp columns · · < 0) := by
  unfold sortMatches
  split
  · rename_i short
    match rows, short with
    | [], _ => exact List.Pairwise.nil
    | [row], _ => exact pairwise_singleton _ _
  · apply dropRepeats_pairwise (matchCmp_lawful columns)
    · intro left right apart
      exact matchCmp_ne_zero (of_decide_eq_false apart)
    · exact mergeSort_pairwise (matchCmp_lawful columns) rows

theorem mem_sortMatches (row : Nat) :
    row ∈ (sortMatches columns rows).map IndexMatch.rowId ↔ row ∈ rows.map IndexMatch.rowId := by
  unfold sortMatches
  split
  · rfl
  · have sorted := List.mergeSort_perm rows fun left right => matchCmp columns left right ≤ 0
    simp only [List.mem_map]
    constructor
    · rintro ⟨found, kept, rfl⟩
      exact ⟨found, sorted.mem_iff.mp (dropRepeats_subset kept), rfl⟩
    · rintro ⟨found, inRows, rfl⟩
      obtain ⟨kept, inKept, same⟩ := @exists_kept (IndexMatch V)
        (fun last match_ => decide (match_.rowId = last.rowId)) (fun _ => decide_eq_true rfl) _ found
        (sorted.mem_iff.mpr inRows)
      exact ⟨kept, inKept, (of_decide_eq_true same).symm⟩

/-- Sorted matches are matches that were found. -/
theorem sortMatches_subset {found : IndexMatch V} (kept : found ∈ sortMatches columns rows) :
    found ∈ rows := by
  unfold sortMatches at kept
  split at kept
  · exact kept
  · exact (mergeSort_perm rows _).mem_iff.mp (dropRepeats_subset kept)

namespace IndexScan

/-- A general scan collects the list of its matches. -/
theorem collected_isMatches {scan : IndexScan V} {found : List Nat}
    (general : scan.lookup = .general found) : scan.IsMatches (scan.collected found) := by
  have sorted := sortMatches_pairwise scan.columns (found.map fun row => ⟨row, scan.key row⟩)
  have keyed : ∀ one ∈ sortMatches scan.columns (found.map fun row => ⟨row, scan.key row⟩),
      one = ⟨one.rowId, scan.key one.rowId⟩ := by
    intro one kept
    obtain ⟨row, -, rfl⟩ := mem_map.mp (sortMatches_subset kept)
    rfl
  constructor
  · rw [collected, List.Nodup, pairwise_map]
    refine sorted.imp_of_mem ?_
    intro left right inLeft inRight less same
    -- matches of one row are one match, and that is not before itself
    have one : left = right := by rw [keyed left inLeft, keyed right inRight, same]
    have itself := (matchCmp_lawful scan.columns).symm left left
    rw [one] at less itself
    omega
  · intro row
    rw [collected, mem_sortMatches, List.map_map, IndexScan.found, general]
    simp
  · rw [collected, pairwise_map]
    refine sorted.imp_of_mem ?_
    intro left right inLeft inRight less
    have keys := keyCmp_of_matchCmp less
    rwa [keyed left inLeft, keyed right inRight] at keys

end IndexScan

/-! ## The place of a general scan -/

/-- Where the cursor stands. -/
def Place.cursor (place : Place) (count : Nat) : ListCursor :=
  match place.lastDirection with
  | .forward => .on (place.matchedIndex - 1)
  | .backward => .on place.matchedIndex
  | .noMovement =>
    if place.matchedIndex = 0 ∧ ¬place.done then ⟨0, count⟩
    else ⟨place.matchedIndex, place.matchedIndex⟩

structure Place.Valid (place : Place) (count : Nat) : Prop where
  within : place.matchedIndex ≤ count
  forward : place.lastDirection = .forward → 0 < place.matchedIndex
  backward : place.lastDirection = .backward → place.matchedIndex < count
  ended : place.lastDirection = .noMovement → place.matchedIndex = 0 ∨ place.matchedIndex = count

namespace IndexScan

variable {place : Place}

theorem cursor_ahead {count : Nat} (valid : place.Valid count) :
    (place.cursor count).ahead =
      if place.lastDirection = .backward ∧ place.matchedIndex < count then place.matchedIndex + 1
      else place.matchedIndex := by
  cases last : place.lastDirection with
  | forward =>
    have := valid.forward last
    simp only [Place.cursor, last, ListCursor.on, reduceCtorEq, false_and, if_false]
    omega
  | backward =>
    simp only [Place.cursor, last, ListCursor.on, true_and, if_pos (valid.backward last)]
  | noMovement =>
    simp only [Place.cursor, last, reduceCtorEq, false_and, if_false]
    split
    · rename_i fresh
      exact fresh.1.symm
    · rfl

theorem cursor_behind {count : Nat} (valid : place.Valid count) :
    (place.cursor count).behind =
      let index :=
        if place.lastDirection = .forward ∧ 0 < place.matchedIndex then place.matchedIndex - 1
        else place.matchedIndex
      if index = 0 ∧ place.lastDirection = .noMovement ∧ ¬place.done then count else index := by
  cases last : place.lastDirection with
  | forward =>
    have := valid.forward last
    simp only [Place.cursor, last, ListCursor.on, true_and, if_pos this, reduceCtorEq, false_and,
      and_false, if_false]
  | backward =>
    simp only [Place.cursor, last, ListCursor.on, reduceCtorEq, false_and, and_false, if_false]
  | noMovement =>
    simp only [Place.cursor, last, reduceCtorEq, false_and, if_false, true_and]
    split <;> rfl

/-- One fetch of a general scan is one move of its cursor. -/
theorem getTupleFullScan_next {rows : List Nat} (valid : place.Valid rows.length) (direction : Bool) :
    (getTupleFullScan rows direction place).1.Valid rows.length ∧
      (place.cursor rows.length).next rows anyRow direction =
        ((getTupleFullScan rows direction place).1.cursor rows.length,
          (getTupleFullScan rows direction place).2) := by
  have within := valid.within
  cases direction with
  | true =>
    have ahead := cursor_ahead valid
    unfold getTupleFullScan
    simp only [if_true]
    rw [← ahead]
    have bound : (place.cursor rows.length).ahead ≤ rows.length := by
      rw [ahead]
      split <;> omega
    by_cases past : rows.length ≤ (place.cursor rows.length).ahead
    · rw [if_pos past, ListCursor.next_forward_end past]
      have atEnd : (place.cursor rows.length).ahead = rows.length := by omega
      rw [atEnd]
      refine ⟨⟨by simp, by simp, by simp, by simp⟩, ?_⟩
      simp [Place.cursor, ListCursor.finish]
    · rw [if_neg past]
      have here : rows[(place.cursor rows.length).ahead]? =
          some (rows[(place.cursor rows.length).ahead]) := getElem?_eq_getElem (by omega)
      rw [ListCursor.next_forward_found here rfl, here]
      refine ⟨⟨by simp; omega, by simp, by simp, by simp⟩, ?_⟩
      simp [Place.cursor]
  | false =>
    have behind := cursor_behind valid
    unfold getTupleFullScan
    simp only [Bool.false_eq_true, if_false] at behind ⊢
    rw [← behind]
    have bound : (place.cursor rows.length).behind ≤ rows.length := by
      rw [behind]
      split <;> split <;> omega
    by_cases none_ : (place.cursor rows.length).behind = 0
    · rw [if_pos none_, ListCursor.next_backward_end none_, none_]
      refine ⟨⟨by simp, by simp, by simp, by simp⟩, ?_⟩
      simp [Place.cursor, ListCursor.origin]
    · rw [if_neg none_]
      have here : rows[(place.cursor rows.length).behind - 1]? =
          some (rows[(place.cursor rows.length).behind - 1]) := getElem?_eq_getElem (by omega)
      have place_ : (place.cursor rows.length).behind =
          (place.cursor rows.length).behind - 1 + 1 := by omega
      rw [ListCursor.next_backward_found place_ here rfl, here]
      refine ⟨⟨by simp; omega, by simp, by simp; omega, by simp⟩, ?_⟩
      simp [Place.cursor]

/-- A general scan answers as a cursor does, from any place on. -/
theorem run_general {scan : IndexScan V} {found : List Nat} (general : scan.lookup = .general found)
    (calls : List ScanCall) : ∀ {state : ScanState},
      state.place.Valid (scan.collected found).length → state.mark.Valid (scan.collected found).length →
        (state.matched = some (scan.collected found) ∨
          (state.matched = none ∧ state.place = {} ∧ state.mark = {})) →
          scan.run state calls = .ok (cursorAnswers (scan.collected found)
            (state.place.cursor (scan.collected found).length)
            (state.mark.cursor (scan.collected found).length) calls) := by
  induction calls with
  | nil => exact fun _ _ _ => rfl
  | cons call rest ih =>
    intro state validPlace validMark collected
    cases call with
    | markPos =>
      refine ih validPlace validPlace ?_
      exact collected.imp id fun fresh => ⟨fresh.1, fresh.2.1, fresh.2.1⟩
    | restrPos =>
      refine ih validMark validMark ?_
      exact collected.imp id fun fresh => ⟨fresh.1, fresh.2.2, fresh.2.2⟩
    | fetch direction =>
      obtain ⟨validAfter, moved⟩ := getTupleFullScan_next validPlace direction
      have fetched : scan.getTuple state direction =
          .ok ({ state with
            matched := some (scan.collected found)
            place := (getTupleFullScan (scan.collected found) direction state.place).1 },
            (getTupleFullScan (scan.collected found) direction state.place).2) := by
        unfold getTuple
        rw [general]
        rcases collected with ready | ⟨notReady, fresh, -⟩
        · simp [ready]
        · simp [notReady, fresh]
      rw [run, fetched, cursorAnswers, moved]
      have later := @ih { state with
        matched := some (scan.collected found)
        place := (getTupleFullScan (scan.collected found) direction state.place).1 }
        validAfter validMark (.inl rfl)
      simp only [bind, Except.bind, later]

/-! ## Probes -/

theorem run_fetch {scan : IndexScan V} {state after : ScanState} {direction : Bool} {row : Option Nat}
    (fetched : scan.getTuple state direction = .ok (after, row)) (rest : List ScanCall) :
    scan.run state (.fetch direction :: rest) = (scan.run after rest).map (row :: ·) := by
  rw [run, fetched]
  simp only [bind, Except.bind]
  cases scan.run after rest <;> rfl

theorem map_cons_eq_ok {first second : Option Nat} {rest : List (Option Nat)}
    (result : Except String (List (Option Nat))) :
    result.map (first :: ·) = .ok (second :: rest) ↔ first = second ∧ result = .ok rest := by
  cases result with
  | error message => simp [Except.map]
  | ok answers => simp [Except.map]

/-- A fetch in which a cursor comes back over an end that it had passed. -/
def stepsBackIn (rows : List Nat) (cursor mark : ListCursor) : List ScanCall → Bool
  | [] => false
  | .fetch direction :: rest =>
    cursor = (if direction then .origin else .finish rows) ||
      stepsBackIn rows (cursor.next rows anyRow direction).1 mark rest
  | .markPos :: rest => stepsBackIn rows cursor cursor rest
  | .restrPos :: rest => stepsBackIn rows mark mark rest

/-- The places of a cursor over one row; a probe only knows whether it has been fetched. -/
def probePlaces (row : Nat) : List (Bool × ListCursor) :=
  [(false, .start [row]), (true, .on 0), (true, .finish [row]), (true, .origin)]

theorem probePlaces_apart (row : Nat) :
    ListCursor.start [row] ≠ .origin ∧ ListCursor.start [row] ≠ .finish [row] ∧
      ListCursor.on 0 ≠ .origin ∧ ListCursor.on 0 ≠ .finish [row] ∧
      ListCursor.finish [row] ≠ .origin := by
  simp [ListCursor.start, ListCursor.on, ListCursor.origin, ListCursor.finish]

variable {scan : IndexScan V}

/-- A probe that finds a row answers as a cursor does exactly as long as the
    cursor does not come back over an end. -/
theorem run_probe_iff {row : Nat} (probe : scan.lookup = .probe (some row))
    (calls : List ScanCall) : ∀ {state : ScanState} {cursor mark : ListCursor},
      (state.place.done, cursor) ∈ probePlaces row → (state.mark.done, mark) ∈ probePlaces row →
        (scan.run state calls = .ok (cursorAnswers [row] cursor mark calls) ↔
          stepsBackIn [row] cursor mark calls = false) := by
  induction calls with
  | nil => exact fun _ _ => ⟨fun _ => rfl, fun _ => rfl⟩
  | cons call rest ih =>
    intro state cursor mark atPlace atMark
    cases call with
    | markPos => exact ih atPlace atPlace
    | restrPos => exact ih atMark atMark
    | fetch direction =>
      have fetched : scan.getTuple state direction =
          .ok (if state.place.done then (state, none)
            else ({ state with place.done := true }, some row)) := by
        unfold getTuple
        rw [probe]
        dsimp only
        split <;> rfl
      -- a fetch that answers alike leaves the rest of the calls
      have alike : ∀ {after : ScanState} {moved : ListCursor} {answer : Option Nat},
          scan.getTuple state direction = .ok (after, answer) →
            cursor.next [row] anyRow direction = (moved, answer) →
              cursor ≠ (if direction then .origin else .finish [row]) →
                (after.place.done, moved) ∈ probePlaces row → after.mark = state.mark →
                  (scan.run state (.fetch direction :: rest) =
                      .ok (cursorAnswers [row] cursor mark (.fetch direction :: rest)) ↔
                    stepsBackIn [row] cursor mark (.fetch direction :: rest) = false) := by
        intro after moved answer fetchedHere next notPast atAfter sameMark
        rw [run_fetch fetchedHere, cursorAnswers, next, map_cons_eq_ok, stepsBackIn, next,
          decide_eq_false notPast, Bool.false_or]
        exact ⟨fun same => (ih atAfter (sameMark ▸ atMark)).mp same.2,
          fun stays => ⟨rfl, (ih atAfter (sameMark ▸ atMark)).mpr stays⟩⟩
      -- one that comes back over an end is answered with nothing
      have missed : ∀ {moved : ListCursor}, scan.getTuple state direction = .ok (state, none) →
          cursor.next [row] anyRow direction = (moved, some row) →
            cursor = (if direction then .origin else .finish [row]) →
              (scan.run state (.fetch direction :: rest) =
                  .ok (cursorAnswers [row] cursor mark (.fetch direction :: rest)) ↔
                stepsBackIn [row] cursor mark (.fetch direction :: rest) = false) := by
        intro moved fetchedHere next past
        rw [run_fetch fetchedHere, cursorAnswers, next, map_cons_eq_ok, stepsBackIn,
          decide_eq_true past]
        simp
      have apart := probePlaces_apart row
      simp only [probePlaces, mem_cons, Prod.mk.injEq, not_mem_nil, or_false] at atPlace
      rcases atPlace with ⟨done, rfl⟩ | ⟨done, rfl⟩ | ⟨done, rfl⟩ | ⟨done, rfl⟩ <;>
        rw [done] at fetched <;> cases direction
      · exact @alike _ (.on 0) _ fetched rfl apart.2.1 (by simp [probePlaces]) rfl
      · exact @alike _ (.on 0) _ fetched rfl apart.1 (by simp [probePlaces]) rfl
      · exact @alike _ .origin _ fetched rfl apart.2.2.2.1 (by simp [probePlaces, done]) rfl
      · exact @alike _ (.finish [row]) _ fetched rfl apart.2.2.1 (by simp [probePlaces, done]) rfl
      · exact missed fetched rfl rfl
      · exact @alike _ (.finish [row]) _ fetched rfl apart.2.2.2.2 (by simp [probePlaces, done]) rfl
      · exact @alike _ .origin _ fetched rfl apart.2.2.2.2.symm (by simp [probePlaces, done]) rfl
      · exact missed fetched rfl rfl

theorem nextElement_none (found : List (Option Nat)) :
    ∀ index, found.filterMap id = [] → (nextElement index found).2 = none := by
  induction found with
  | nil => exact fun _ _ => rfl
  | cons element rest ih =>
    intro index nothing
    cases element with
    | none => exact ih (index + 1) (by simpa using nothing)
    | some row => simp at nothing

theorem nextElement_some (found : List (Option Nat)) :
    ∀ index, found.filterMap id ≠ [] → ∃ row, (nextElement index found).2 = some row := by
  induction found with
  | nil => exact fun _ something => absurd rfl something
  | cons element rest ih =>
    intro index something
    cases element with
    | none => exact ih (index + 1) (by simpa using something)
    | some row => exact ⟨row, rfl⟩

/-- Where nothing is found every fetch that is accepted answers with nothing. -/
theorem getTuple_of_none (nothing : scan.found = [])
    (probe : scan.isGeneral = false) {state after : ScanState} {direction : Bool} {row : Option Nat}
    (fetched : scan.getTuple state direction = .ok (after, row)) : row = none := by
  unfold getTuple at fetched
  unfold found at nothing
  cases lookup : scan.lookup with
  | general found => simp [isGeneral, lookup] at probe
  | probe found =>
    rw [lookup] at fetched nothing
    dsimp only at fetched nothing
    split at fetched
    · cases fetched
      rfl
    · cases fetched
      exact toList_eq_nil_iff.mp nothing
  | arrayProbe found =>
    rw [lookup] at fetched nothing
    dsimp only at fetched nothing
    split at fetched
    · cases fetched
    · split at fetched
      · cases fetched
        rfl
      · cases fetched
        apply nextElement_none
        rw [filterMap_eq_nil_iff] at nothing ⊢
        exact fun element later => nothing element (mem_of_mem_drop later)

theorem run_of_none (nothing : scan.found = []) (probe : scan.isGeneral = false)
    (calls : List ScanCall) :
    ∀ {state : ScanState} (cursor mark : ListCursor) {answers : List (Option Nat)},
      scan.run state calls = .ok answers → answers = cursorAnswers [] cursor mark calls := by
  induction calls with
  | nil =>
    intro state cursor mark answers ran
    cases ran
    rfl
  | cons call rest ih =>
    intro state cursor mark answers ran
    cases call with
    | markPos => exact ih cursor cursor ran
    | restrPos => exact ih mark mark ran
    | fetch direction =>
      cases fetched : scan.getTuple state direction with
      | error message =>
        rw [run, fetched] at ran
        cases ran
      | ok result =>
        rw [@run_fetch V scan state result.1 direction result.2 fetched] at ran
        have noRow : result.2 = none := getTuple_of_none nothing probe fetched
        cases later : scan.run result.1 rest with
        | error message =>
          rw [later] at ran
          cases ran
        | ok answersLater =>
          rw [later, noRow] at ran
          cases ran
          have next : cursor.next [] anyRow direction =
              (if direction then .finish ([] : List Nat) else .origin, none) := by
            cases direction <;> simp [ListCursor.next]
          rw [cursorAnswers, next]
          exact congrArg (none :: ·) (ih _ mark later)

theorem isMatches_singleton {row : Nat} {rows : List Nat}
    (matches_ : scan.IsMatches rows) (one : scan.found = [row]) : rows = [row] := by
  have same : rows.Perm [row] := by
    rw [perm_ext_iff_of_nodup matches_.nodup (nodup_singleton row)]
    intro other
    rw [matches_.mem_iff, one]
  exact perm_singleton.mp same

theorem next_forward_answer (rows : List Nat) (cursor : ListCursor) :
    (cursor.next rows anyRow true).2 = rows[cursor.ahead]? := by
  by_cases past : rows.length ≤ cursor.ahead
  · rw [ListCursor.next_forward_end past, getElem?_eq_none past]
  · have here : rows[cursor.ahead]? = some rows[cursor.ahead] := getElem?_eq_getElem (by omega)
    rw [ListCursor.next_forward_found here rfl, here]

/-- The answer to the first fetch of a cursor over some rows. -/
theorem next_start {first : Nat} {rest : List Nat} :
    (ListCursor.start (first :: rest)).next (first :: rest) anyRow true = (.on 0, some first) :=
  ListCursor.next_forward_found rfl rfl

theorem getTuple_array {scan : IndexScan V} {elements : List (Option Nat)}
    (array : scan.lookup = .arrayProbe elements) {state : ScanState} (notDone : state.place.done = false) :
    ∃ place, scan.getTuple state true =
      .ok ({ state with
        place
        arrayIndex := (nextElement state.arrayIndex (elements.drop state.arrayIndex)).1 },
        (nextElement state.arrayIndex (elements.drop state.arrayIndex)).2) ∧
      ((nextElement state.arrayIndex (elements.drop state.arrayIndex)).2 ≠ none →
        place = state.place) := by
  unfold getTuple
  rw [array]
  simp only [Bool.not_true, Bool.false_eq_true, if_false, notDone]
  refine ⟨_, rfl, fun something => ?_⟩
  rw [if_neg (by simpa using something)]

/-- An array probe that finds a row is no cursor: going back to a mark does not
    go back to its element. -/
theorem not_isCursor_array {elements : List (Option Nat)}
    (array : scan.lookup = .arrayProbe elements) (something : scan.found ≠ []) : ¬scan.IsCursor := by
  rintro ⟨rows, isMatches, answers⟩
  obtain ⟨row, first⟩ := nextElement_some elements 0 (by rwa [found, array] at something)
  obtain ⟨placeFirst, fetchFirst, same⟩ := @getTuple_array V scan elements array {} rfl
  rw [drop_zero, first] at fetchFirst same
  rw [same (by simp)] at fetchFirst
  obtain ⟨placeSecond, fetchSecond, -⟩ := @getTuple_array V scan elements array
    { arrayIndex := (nextElement 0 elements).1 } rfl
  -- the second element answers, with or without a return to the mark
  have twice := answers [.fetch true, .fetch true] _
    (by rw [run_fetch fetchFirst, run_fetch fetchSecond]; rfl)
  have marked := answers [.markPos, .fetch true, .restrPos, .fetch true] _
    (by rw [run, run_fetch fetchFirst, run, run_fetch fetchSecond]; rfl)
  cases rows with
  | nil => simp [cursorAnswers, ListCursor.next] at twice
  | cons one rest =>
    simp only [cursorAnswers, next_start] at twice marked
    have again := twice.symm.trans marked
    simp only [cons.injEq, and_true, true_and, next_forward_answer] at again
    have nodup := isMatches.nodup
    cases rest with
    | nil => simp [ListCursor.on] at again
    | cons two rest =>
      simp only [ListCursor.on, getElem?_cons_succ, getElem?_cons_zero,
        some.injEq] at again
      simp [again] at nodup

/-- An index scan is a cursor over its matches exactly if it is a general scan or
    finds nothing; a probe of one key that finds a row answers a sequence of
    calls as a cursor does exactly if that does not come back over an end. -/
theorem isCursor_iff (columns : List (KeyColumn V)) (key : Nat → Key V) (lookup : Lookup) :
    (IsCursor ⟨columns, key, lookup⟩ ↔
      isGeneral ⟨columns, key, lookup⟩ = true ∨ found ⟨columns, key, lookup⟩ = []) ∧
      ∀ row calls, run ⟨columns, key, .probe (some row)⟩ {} calls =
          .ok (cursorAnswers [row] (.start [row]) (.start [row]) calls) ↔
        stepsBackIn [row] (.start [row]) (.start [row]) calls = false := by
  refine ⟨⟨?_, ?_⟩, ?_⟩
  · intro isCursor
    by_contra neither
    rw [not_or] at neither
    obtain ⟨notGeneral, something⟩ := neither
    cases lookup with
    | general rows => exact notGeneral rfl
    | probe answer =>
      cases answer with
      | none => exact something rfl
      | some row =>
        obtain ⟨rows, isMatches, answers⟩ := isCursor
        rw [isMatches_singleton isMatches rfl] at answers
        have answered := answers [.fetch true, .fetch true, .fetch false] _ rfl
        simp [cursorAnswers, ListCursor.next, ListCursor.start, ListCursor.on, ListCursor.finish, anyRow] at answered
    | arrayProbe elements => exact not_isCursor_array rfl something isCursor
  · intro either
    cases lookup with
    | general rows =>
      have isMatches := @collected_isMatches V ⟨columns, key, .general rows⟩ rows rfl
      refine ⟨_, isMatches, fun calls answers ran => ?_⟩
      have validStart : Place.Valid {} (collected ⟨columns, key, .general rows⟩ rows).length :=
        ⟨Nat.zero_le _, by simp, by simp, fun _ => .inl rfl⟩
      have general := @run_general V ⟨columns, key, .general rows⟩ rows rfl calls {} validStart
        validStart (.inr ⟨rfl, rfl, rfl⟩)
      exact Except.ok.inj (ran.symm.trans general)
    | probe answer =>
      have nothing := either.resolve_left (by simp [isGeneral])
      exact ⟨[], ⟨List.nodup_nil, fun row => by rw [nothing], List.Pairwise.nil⟩,
        fun calls answers ran => run_of_none nothing rfl calls _ _ ran⟩
    | arrayProbe elements =>
      have nothing := either.resolve_left (by simp [isGeneral])
      exact ⟨[], ⟨List.nodup_nil, fun row => by rw [nothing], List.Pairwise.nil⟩,
        fun calls answers ran => run_of_none nothing rfl calls _ _ ran⟩
  · intro row calls
    exact run_probe_iff rfl calls (by simp [probePlaces]) (by simp [probePlaces])

/-- A probe that went past its row does not come back to it, and an array probe
    returns a row once for each element. -/
theorem probe_past_end :
    run (⟨[], fun _ _ => none, .probe (some 7)⟩ : IndexScan Unit) {}
        [.fetch true, .fetch true, .fetch false] = .ok [some 7, none, none] ∧
      cursorAnswers [7] (.start [7]) (.start [7]) [.fetch true, .fetch true, .fetch false] =
        [some 7, none, some 7] ∧
      run (⟨[], fun _ _ => none, .arrayProbe [some 7, some 7]⟩ : IndexScan Unit) {}
        [.fetch true, .fetch true] = .ok [some 7, some 7] := by
  refine ⟨rfl, ?_, rfl⟩
  decide

end IndexScan

end FastPg.Index
