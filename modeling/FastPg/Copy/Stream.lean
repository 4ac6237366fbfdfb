import Mathlib.Data.List.DropRight
import Mathlib.Data.List.TakeWhile

/-! # COPY data from the client

COPY data arrives in messages. Each message is checked to be UTF-8 by itself and
cut into lines; lines lose their carriage returns, an end marker ends the data,
and at the end the lines are joined again for the COPY parser of the backend.
What the parser gets is the data as it was sent only if no line is touched on
the way and every message can be read by itself.
-/

namespace FastPg.Copy

open List Option

abbrev Bytes := List UInt8

def newline : UInt8 := 10

def carriageReturn : UInt8 := 13

/-! ## UTF-8 -/

/-- The bytes that may follow a lead byte, or none where there is no such byte. -/
def secondRange (first : UInt8) : Option (UInt8 × UInt8) :=
  if 0xC2 ≤ first ∧ first ≤ 0xDF then some (0x80, 0xBF)
  else if first = 0xE0 then some (0xA0, 0xBF)
  else if first = 0xED then some (0x80, 0x9F)
  else if 0xE1 ≤ first ∧ first ≤ 0xEF then some (0x80, 0xBF)
  else if first = 0xF0 then some (0x90, 0xBF)
  else if 0xF1 ≤ first ∧ first ≤ 0xF3 then some (0x80, 0xBF)
  else if first = 0xF4 then some (0x80, 0x8F)
  else none

/-- How many bytes follow the second one. -/
def laterBytes (first : UInt8) : Nat :=
  if first ≤ 0xDF then 0 else if first ≤ 0xEF then 1 else 2

def isContinuation (byte : UInt8) : Bool := 0x80 ≤ byte ∧ byte ≤ 0xBF

/-- An error of `from_utf8`: where it is, and how many bytes are wrong; none
    where the data ends inside a character. -/
structure Utf8Error where
  validUpTo : Nat
  errorLen : Option Nat
  deriving DecidableEq, Repr

def Utf8Error.text (error : Utf8Error) : String :=
  match error.errorLen with
  | some len => s!"invalid utf-8 sequence of {len} bytes from index {error.validUpTo}"
  | none => s!"incomplete utf-8 byte sequence from index {error.validUpTo}"

/-- What is expected next: a character, the second byte of one, or `later` more. -/
inductive Utf8State where
  | lead
  | second (range : UInt8 × UInt8) (later : Nat)
  | later (seen count : Nat)
  deriving DecidableEq, Repr

/-- `run_utf8_validation` from a place: `start` is where the current character began. -/
def utf8ErrorFrom (start : Nat) : Utf8State → Nat → Bytes → Option Utf8Error
  | .lead, _, [] => none
  | _, _, [] => some ⟨start, none⟩
  | .lead, index, byte :: rest =>
    if byte < 0x80 then utf8ErrorFrom (index + 1) .lead (index + 1) rest
    else match secondRange byte with
      | none => some ⟨index, some 1⟩
      | some range => utf8ErrorFrom index (.second range (laterBytes byte)) (index + 1) rest
  | .second range later, index, byte :: rest =>
    if range.1 ≤ byte ∧ byte ≤ range.2 then
      match later with
      | 0 => utf8ErrorFrom (index + 1) .lead (index + 1) rest
      | count + 1 => utf8ErrorFrom start (.later 2 count) (index + 1) rest
    else some ⟨start, some 1⟩
  | .later seen count, index, byte :: rest =>
    if isContinuation byte then
      match count with
      | 0 => utf8ErrorFrom (index + 1) .lead (index + 1) rest
      | left + 1 => utf8ErrorFrom start (.later (seen + 1) left) (index + 1) rest
    else some ⟨start, some seen⟩

def utf8Error (data : Bytes) : Option Utf8Error := utf8ErrorFrom 0 .lead 0 data

/-! ## The session's side -/

structure SessionCopyState where
  pending : Bytes := []
  lines : List (Nat × Bytes) := []
  done : Bool := false
  lineNumber : Nat := 0
  deriving DecidableEq, Repr

/-- The end marker of text data: a backslash and a dot. -/
def endMarker : Bytes := [92, 46]

/-- `trim_end_matches` of carriage returns. -/
def trimLine (line : Bytes) : Bytes := line.rdropWhile (· = carriageReturn)

namespace SessionCopyState

def processLine (state : SessionCopyState) (line : Bytes) : Except String SessionCopyState :=
  let state := { state with lineNumber := state.lineNumber + 1 }
  if state.done then .error "received copy data after EOF marker"
  else if line = endMarker then .ok { state with done := true }
  else .ok { state with lines := state.lines ++ [(state.lineNumber, line)] }

/-- The loop of `push_data` over the pending bytes; `line` are those before the
    place it has come to. -/
def drainLines (state : SessionCopyState) (line : Bytes) : Bytes → Except String SessionCopyState
  | [] => .ok { state with pending := line }
  | byte :: rest =>
    if byte = newline then do
      let state ← state.processLine (trimLine line)
      state.drainLines [] rest
    else state.drainLines (line ++ [byte]) rest

def pushData (state : SessionCopyState) (data : Bytes) : Except String SessionCopyState :=
  match utf8Error data with
  | some error => .error error.text
  | none => state.drainLines [] (state.pending ++ data)

/-- `finish` up to the lines it passes on. -/
def finish (state : SessionCopyState) : Except String (List Bytes) := do
  let state ←
    if state.pending = [] then .ok state
    else processLine { state with pending := [] } (trimLine state.pending)
  .ok (state.lines.map Prod.snd)

end SessionCopyState

def copyLinesToBytes (lines : List Bytes) : Bytes := lines.flatMap (· ++ [newline])

/-- What the COPY parser of the backend gets of a sequence of messages. -/
def handedOver (messages : List Bytes) : Except String Bytes := do
  let state ← messages.foldlM SessionCopyState.pushData {}
  let lines ← state.finish
  .ok (copyLinesToBytes lines)

/-! ## What should be handed over -/

/-- The lines of some data of which `line` has been read before; the last one
    may lack its newline. -/
def dataLinesFrom (line : Bytes) : Bytes → List Bytes
  | [] => if line = [] then [] else [line]
  | byte :: rest =>
    if byte = newline then line :: dataLinesFrom [] rest
    else dataLinesFrom (line ++ [byte]) rest

def dataLines (data : Bytes) : List Bytes := dataLinesFrom [] data

/-- An end-of-data line, which only text format has; its line may end in a
    carriage return and a newline. -/
def isEndLine (csv : Bool) (line : Bytes) : Bool :=
  !csv && (line = endMarker || line = endMarker ++ [carriageReturn])

/-- The lines before the first end-of-data line. -/
def linesBeforeEnd (csv : Bool) (data : Bytes) : List Bytes :=
  (dataLines data).takeWhile fun line => !isEndLine csv line

/-- The first end-of-data line and what comes after it. -/
def linesFromEnd (csv : Bool) (data : Bytes) : List Bytes :=
  (dataLines data).dropWhile fun line => !isEndLine csv line

/-- The data up to an end-of-data line, with a newline added at the end if one
    is missing. -/
def expectedData (csv : Bool) (data : Bytes) : Bytes := copyLinesToBytes (linesBeforeEnd csv data)

/-! ## Messages and lines -/

namespace SessionCopyState

variable {state : SessionCopyState} (data : Bytes) (messages : List Bytes)

/-- What has been read of the next line does not matter to a line that is taken. -/
theorem processLine_pending (state : SessionCopyState) (line pending : Bytes) :
    processLine { state with pending } line =
      (state.processLine line).map fun state => { state with pending } := by
  unfold processLine
  dsimp only
  split
  · rfl
  · split <;> rfl

theorem drainLines_pending : ∀ (state : SessionCopyState) (line pending : Bytes),
    drainLines { state with pending } line data = state.drainLines line data := by
  induction data with
  | nil => exact fun _ _ _ => rfl
  | cons byte rest ih =>
    intro state line pending
    simp only [drainLines, processLine_pending]
    split
    · cases state.processLine (trimLine line) with
      | error message => rfl
      | ok state => exact ih state [] pending
    · exact ih state (line ++ [byte]) pending

/-- Reading on after some bytes is reading all of them. -/
theorem drainLines_append (first second : Bytes) : ∀ (state : SessionCopyState) (line : Bytes),
    state.drainLines line (first ++ second) =
      (state.drainLines line first).bind fun state => state.drainLines state.pending second := by
  induction first with
  | nil =>
    intro state line
    exact (drainLines_pending second state line line).symm
  | cons byte rest ih =>
    intro state line
    simp only [cons_append, drainLines]
    split
    · cases state.processLine (trimLine line) with
      | error message => rfl
      | ok state => exact ih state []
    · exact ih state (line ++ [byte])

/-- Bytes without a newline only make the current line longer. -/
theorem drainLines_part (part data : Bytes) (unbroken : newline ∉ part) :
    ∀ (state : SessionCopyState) (line : Bytes),
      state.drainLines line (part ++ data) = state.drainLines (line ++ part) data := by
  induction part with
  | nil =>
    intro state line
    rw [nil_append, append_nil]
  | cons byte rest ih =>
    intro state line
    have other : byte ≠ newline := fun same => unbroken (same ▸ mem_cons_self)
    have unbrokenRest : newline ∉ rest := fun inRest => unbroken (.tail _ inRest)
    simp only [cons_append, drainLines, if_neg other]
    rw [ih unbrokenRest, append_assoc, singleton_append]

theorem pending_unbroken : ∀ {state after : SessionCopyState} {line : Bytes},
    newline ∉ line → state.drainLines line data = .ok after → newline ∉ after.pending := by
  induction data with
  | nil =>
    intro state after line unbroken drained
    cases drained
    exact unbroken
  | cons byte rest ih =>
    intro state after line unbroken drained
    simp only [drainLines] at drained
    split at drained
    · cases processed : state.processLine (trimLine line) with
      | error message =>
        rw [processed] at drained
        cases drained
      | ok next =>
        rw [processed] at drained
        exact ih not_mem_nil drained
    · rename_i other
      refine ih ?_ drained
      rw [mem_append, mem_singleton]
      exact fun inLine => inLine.elim unbroken fun same => other same.symm

/-- Messages that can each be read are read as one. -/
theorem foldlM_pushData (readable : ∀ data ∈ messages, utf8Error data = none) :
    ∀ {state : SessionCopyState}, newline ∉ state.pending →
      messages.foldlM pushData state = state.drainLines state.pending messages.flatten := by
  induction messages with
  | nil => exact fun _ => rfl
  | cons data rest ih =>
    intro state unbroken
    have pushed : state.pushData data = state.drainLines state.pending data := by
      simp only [pushData, readable data mem_cons_self]
      exact drainLines_part state.pending data unbroken state []
    rw [foldlM_cons, flatten_cons, drainLines_append, pushed]
    cases drained : state.drainLines state.pending data with
    | error message => rfl
    | ok next =>
      exact ih (fun data inRest => readable data (.tail _ inRest))
        (pending_unbroken data unbroken drained)

/-- A message that cannot be read ends the COPY. -/
theorem foldlM_pushData_unreadable {data : Bytes} {error : Utf8Error}
    (unreadable : utf8Error data = some error) (sent : data ∈ messages) :
    ∀ (state after : SessionCopyState), messages.foldlM pushData state ≠ .ok after := by
  induction messages with
  | nil => cases sent
  | cons first rest ih =>
    intro state after pushedAll
    rw [foldlM_cons] at pushedAll
    cases pushed : state.pushData first with
    | error message =>
      rw [pushed] at pushedAll
      cases pushedAll
    | ok next =>
      rw [pushed] at pushedAll
      cases sent with
      | head => simp only [pushData, unreadable, reduceCtorEq] at pushed
      | tail _ inRest => exact ih inRest next after pushedAll

/-- The lines that are passed on come from the lines of the data, one by one. -/
theorem drainLines_finish : ∀ (state : SessionCopyState) (line : Bytes),
    (state.drainLines line data).bind finish =
      (((dataLinesFrom line data).map trimLine).foldlM processLine state).map
        fun state => state.lines.map Prod.snd := by
  induction data with
  | nil =>
    intro state line
    simp only [drainLines, dataLinesFrom, Except.bind, finish]
    by_cases empty : line = []
    · simp only [if_pos empty]
      rfl
    · simp only [if_neg empty, processLine_pending, map_cons, map_nil, foldlM_cons,
        foldlM_nil]
      cases state.processLine (trimLine line) <;> rfl
  | cons byte rest ih =>
    intro state line
    simp only [drainLines, dataLinesFrom]
    split
    · rw [map_cons, foldlM_cons]
      cases state.processLine (trimLine line) with
      | error message => rfl
      | ok state => exact ih state []
    · exact ih state (line ++ [byte])

theorem processLine_marker (isOpen : state.done = false) :
    state.processLine endMarker =
      .ok { state with lineNumber := state.lineNumber + 1, done := true } := by
  simp only [processLine, isOpen, Bool.false_eq_true, if_false, if_true]

theorem processLine_other (isOpen : state.done = false) {line : Bytes} (other : line ≠ endMarker) :
    state.processLine line = .ok { state with
      lineNumber := state.lineNumber + 1
      lines := state.lines ++ [(state.lineNumber + 1, line)] } := by
  simp only [processLine, isOpen, Bool.false_eq_true, if_false, if_neg other]

/-- Lines are passed on up to the end marker, behind which there must be nothing. -/
theorem processLines (lines : List Bytes) : ∀ {state : SessionCopyState}, state.done = false →
    ∀ out, (lines.foldlM processLine state).map (fun state => state.lines.map Prod.snd) = .ok out ↔
      (lines.dropWhile (· ≠ endMarker)).length ≤ 1 ∧
        state.lines.map Prod.snd ++ lines.takeWhile (· ≠ endMarker) = out := by
  induction lines with
  | nil =>
    intro state isOpen out
    simp [Except.map, pure, Except.pure]
  | cons line rest ih =>
    intro state isOpen out
    rw [foldlM_cons]
    by_cases atEnd : line = endMarker
    · rw [atEnd, processLine_marker isOpen]
      cases rest with
      | nil => simp [Except.map, pure, Except.pure, bind, Except.bind]
      | cons next rest => simp [processLine, Except.map, bind, Except.bind]
    · rw [processLine_other isOpen atEnd]
      have next := @ih { state with
        lineNumber := state.lineNumber + 1
        lines := state.lines ++ [(state.lineNumber + 1, line)] } isOpen out
      simpa [atEnd, dropWhile_cons, takeWhile_cons, bind, Except.bind] using next

end SessionCopyState

variable {line : Bytes}

/-- What is handed over of messages that can each be read. -/
theorem handedOver_of_readable {messages : List Bytes}
    (readable : ∀ data ∈ messages, utf8Error data = none) (out : Bytes) :
    handedOver messages = .ok out ↔
      (((dataLines messages.flatten).map trimLine).dropWhile (· ≠ endMarker)).length ≤ 1 ∧
        copyLinesToBytes (((dataLines messages.flatten).map trimLine).takeWhile (· ≠ endMarker)) =
          out := by
  have passed := SessionCopyState.drainLines_finish messages.flatten {} []
  have pushed : messages.foldlM SessionCopyState.pushData {} =
      SessionCopyState.drainLines {} [] messages.flatten :=
    SessionCopyState.foldlM_pushData messages readable not_mem_nil
  have handed : handedOver messages =
      ((SessionCopyState.drainLines {} [] messages.flatten).bind SessionCopyState.finish).bind
        fun lines => .ok (copyLinesToBytes lines) := by
    unfold handedOver
    rw [pushed]
    cases SessionCopyState.drainLines {} [] messages.flatten <;> rfl
  have taken := @SessionCopyState.processLines ((dataLines messages.flatten).map trimLine) {} rfl
  rw [handed, passed]
  simp only [map_nil, nil_append] at taken
  constructor
  · intro same
    cases result : (((dataLines messages.flatten).map trimLine).foldlM SessionCopyState.processLine
        {}).map (fun state => state.lines.map Prod.snd) with
    | error message =>
      rw [dataLines] at result
      rw [result] at same
      cases same
    | ok lines =>
      have asLines := (taken lines).mp result
      rw [dataLines] at result
      rw [result] at same
      rw [asLines.2]
      exact ⟨asLines.1, Except.ok.inj same⟩
  · rintro ⟨short, rfl⟩
    have result := (taken _).mpr ⟨short, rfl⟩
    rw [dataLines] at result
    rw [result]
    rfl

/-! ## Lines that are left alone -/

theorem trimLine_eq_self_iff (line : Bytes) :
    trimLine line = line ↔ line.getLast? ≠ some carriageReturn := by
  rw [trimLine, rdropWhile_eq_self_iff]
  constructor
  · intro kept atEnd
    have full : line ≠ [] := ne_nil_of_mem (mem_of_getLast? atEnd)
    rw [getLast?_eq_some_getLast full, some.injEq] at atEnd
    exact kept full (decide_eq_true atEnd)
  · intro other full atEnd
    rw [getLast?_eq_some_getLast full] at other
    exact other (congrArg some (of_decide_eq_true atEnd))

theorem trimLine_endLine {csv : Bool} (isEnd : isEndLine csv line = true) :
    trimLine line = endMarker := by
  simp only [isEndLine, Bool.and_eq_true, Bool.or_eq_true, decide_eq_true_eq] at isEnd
  rcases isEnd.2 with rfl | rfl <;> decide

theorem trimLine_unbroken (unbroken : newline ∉ line) : newline ∉ trimLine line :=
  fun inTrimmed => unbroken (( rdropWhile_prefix _ _).subset inTrimmed)

theorem dataLinesFrom_unbroken (data : Bytes) : ∀ {line : Bytes}, newline ∉ line →
    ∀ {other : Bytes}, other ∈ dataLinesFrom line data → newline ∉ other := by
  induction data with
  | nil =>
    intro line unbroken other inLines
    rw [dataLinesFrom] at inLines
    split at inLines
    · cases inLines
    · rw [mem_singleton] at inLines
      exact inLines ▸ unbroken
  | cons byte rest ih =>
    intro line unbroken other inLines
    rw [dataLinesFrom] at inLines
    split at inLines
    · cases inLines with
      | head => exact unbroken
      | tail _ later => exact ih not_mem_nil later
    · rename_i notNewline
      refine ih ?_ inLines
      rw [mem_append, mem_singleton]
      exact fun inLine => inLine.elim unbroken fun same => notNewline same.symm

theorem dataLinesFrom_line (rest part : Bytes) (unbroken : newline ∉ part) : ∀ line : Bytes,
    dataLinesFrom line (part ++ newline :: rest) = (line ++ part) :: dataLinesFrom [] rest := by
  induction part with
  | nil =>
    intro line
    rw [nil_append, dataLinesFrom, if_pos rfl, append_nil]
  | cons byte more ih =>
    intro line
    have other : byte ≠ newline := fun same => unbroken (same ▸ mem_cons_self)
    have unbrokenMore : newline ∉ more := fun inMore => unbroken (.tail _ inMore)
    rw [cons_append, dataLinesFrom, if_neg other, ih unbrokenMore, append_assoc,
      singleton_append]

/-- Lines that are joined can be told apart again. -/
theorem dataLines_copyLinesToBytes {lines : List Bytes} :
    (∀ line ∈ lines, newline ∉ line) → dataLines (copyLinesToBytes lines) = lines := by
  induction lines with
  | nil => exact fun _ => rfl
  | cons line rest ih =>
    intro unbroken
    have joined : copyLinesToBytes (line :: rest) = line ++ newline :: copyLinesToBytes rest := by
      simp [copyLinesToBytes]
    rw [joined, dataLines, dataLinesFrom_line _ _ (unbroken line mem_cons_self)]
    exact congrArg (line :: ·) (ih fun line inRest => unbroken line (.tail _ inRest))

theorem copyLinesToBytes_injective {first second : List Bytes}
    (unbrokenFirst : ∀ line ∈ first, newline ∉ line)
    (unbrokenSecond : ∀ line ∈ second, newline ∉ line)
    (same : copyLinesToBytes first = copyLinesToBytes second) : first = second := by
  rw [← dataLines_copyLinesToBytes unbrokenFirst, same, dataLines_copyLinesToBytes unbrokenSecond]

/-- Data that passes through unchanged: every message can be read by itself, no
    line that is to be handed over ends in a carriage return or looks like an
    end marker, and nothing comes after the end-of-data line. -/
structure Untouched (csv : Bool) (messages : List Bytes) : Prop where
  readable : ∀ data ∈ messages, utf8Error data = none
  plain : ∀ line ∈ linesBeforeEnd csv messages.flatten,
    line.getLast? ≠ some carriageReturn ∧ line ≠ endMarker
  ended : (linesFromEnd csv messages.flatten).length ≤ 1

theorem isEndLine_of_linesFromEnd {csv : Bool} {data : Bytes} {more : List Bytes}
    (rest : linesFromEnd csv data = line :: more) : isEndLine csv line = true := by
  have head := head?_dropWhile_not (fun line => !isEndLine csv line) (dataLines data)
  unfold linesFromEnd at rest
  rw [rest] at head
  simpa using head

/-- Lines that are taken up to the marker are those up to the end-of-data line,
    each as it is, exactly if none of them is changed or taken for a marker. -/
theorem taken_lines_iff (csv : Bool) (data : Bytes) :
    (((dataLines data).map trimLine).dropWhile (· ≠ endMarker)).length ≤ 1 ∧
        ((dataLines data).map trimLine).takeWhile (· ≠ endMarker) = linesBeforeEnd csv data ↔
      (∀ line ∈ linesBeforeEnd csv data,
        line.getLast? ≠ some carriageReturn ∧ line ≠ endMarker) ∧
          (linesFromEnd csv data).length ≤ 1 := by
  rw [takeWhile_map, dropWhile_map, length_map]
  let taken : Bytes → Bool := (fun line => decide (line ≠ endMarker)) ∘ trimLine
  have atMarker : (dataLines data).takeWhile taken ++ (dataLines data).dropWhile taken =
      linesBeforeEnd csv data ++ linesFromEnd csv data := by
    rw [takeWhile_append_dropWhile]
    exact (takeWhile_append_dropWhile ..).symm
  constructor
  · rintro ⟨short, same⟩
    -- both ways of cutting the lines stop at the same place
    have sameLength : ((dataLines data).takeWhile taken).length =
        (linesBeforeEnd csv data).length := by
      rw [← same, length_map]
    obtain ⟨sameTaken, sameRest⟩ := append_inj atMarker sameLength
    have trimmed : ∀ line ∈ linesBeforeEnd csv data, trimLine line = line := by
      have mapped : (linesBeforeEnd csv data).map trimLine = (linesBeforeEnd csv data).map id := by
        rw [List.map_id, ← sameTaken]
        exact same.trans sameTaken.symm
      exact map_inj_left.mp mapped
    refine ⟨fun line before => ⟨(trimLine_eq_self_iff line).mp (trimmed line before), ?_⟩,
      sameRest ▸ short⟩
    rw [← sameTaken] at before
    have isTaken : taken line = true := mem_takeWhile_imp before
    have notMarker : trimLine line ≠ endMarker := of_decide_eq_true isTaken
    rwa [trimmed line (sameTaken ▸ before)] at notMarker
  · rintro ⟨plain, short⟩
    have trimmed : ∀ line ∈ linesBeforeEnd csv data, trimLine line = line :=
      fun line before => (trimLine_eq_self_iff line).mpr (plain line before).1
    have allTaken : ∀ line ∈ linesBeforeEnd csv data, taken line = true := by
      intro line before
      exact decide_eq_true ((trimmed line before).symm ▸ (plain line before).2)
    have stops : (linesFromEnd csv data).takeWhile taken = [] ∧
        (linesFromEnd csv data).dropWhile taken = linesFromEnd csv data := by
      cases rest : linesFromEnd csv data with
      | nil => exact ⟨rfl, rfl⟩
      | cons line more =>
        have isEnd := isEndLine_of_linesFromEnd rest
        have notTaken : taken line = false := by
          simp [taken, trimLine_endLine isEnd]
        rw [takeWhile_cons, dropWhile_cons, notTaken]
        exact ⟨rfl, rfl⟩
    have whole : linesBeforeEnd csv data ++ linesFromEnd csv data = dataLines data :=
      takeWhile_append_dropWhile ..
    rw [← whole, takeWhile_append_of_pos allTaken, dropWhile_append_of_pos allTaken,
      stops.1, stops.2, append_nil]
    exact ⟨short, (map_congr_left trimmed).trans (map_id _)⟩

theorem handedOver_eq_expectedData (csv : Bool) (messages : List Bytes) :
    handedOver messages = .ok (expectedData csv messages.flatten) ↔ Untouched csv messages := by
  by_cases readable : ∀ data ∈ messages, utf8Error data = none
  · rw [handedOver_of_readable readable]
    have sameLines : copyLinesToBytes
        (((dataLines messages.flatten).map trimLine).takeWhile (· ≠ endMarker)) =
          expectedData csv messages.flatten ↔
        ((dataLines messages.flatten).map trimLine).takeWhile (· ≠ endMarker) =
          linesBeforeEnd csv messages.flatten := by
      refine ⟨copyLinesToBytes_injective ?_ ?_, congrArg copyLinesToBytes⟩
      · intro line inTaken
        obtain ⟨whole, inData, rfl⟩ := List.mem_map.mp ((List.takeWhile_prefix _).subset inTaken)
        exact trimLine_unbroken (dataLinesFrom_unbroken _ List.not_mem_nil inData)
      · intro line inTaken
        exact dataLinesFrom_unbroken _ List.not_mem_nil ((List.takeWhile_prefix _).subset inTaken)
    rw [sameLines, taken_lines_iff]
    exact ⟨fun same => ⟨readable, same.1, same.2⟩, fun same => ⟨same.plain, same.ended⟩⟩
  · constructor
    · intro handed
      push Not at readable
      obtain ⟨data, sent, broken⟩ := readable
      obtain ⟨error, unreadable⟩ := Option.ne_none_iff_exists'.mp broken
      unfold handedOver at handed
      cases pushed : messages.foldlM SessionCopyState.pushData {} with
      | error message =>
        rw [pushed] at handed
        cases handed
      | ok state =>
        exact absurd pushed
          (SessionCopyState.foldlM_pushData_unreadable messages unreadable sent {} state)
    · exact fun untouched => absurd untouched.readable readable

/-- A line of Windows data loses its carriage return, and a letter that two
    messages share cannot be read. -/
theorem handedOver_carriage_return :
    (∀ csv, handedOver [[97, 13, 10]] ≠ .ok (expectedData csv [97, 13, 10])) ∧
      (∀ csv, handedOver [[0xC3, 0xA9]] = .ok (expectedData csv [0xC3, 0xA9])) ∧
      handedOver [[0xC3], [0xA9]] = .error "incomplete utf-8 byte sequence from index 0" := by
  refine ⟨?_, ?_, by rfl⟩
  · intro csv
    cases csv <;> exact fun same => absurd (Except.ok.inj same) (by decide)
  · intro csv
    cases csv <;> rfl

end FastPg.Copy
