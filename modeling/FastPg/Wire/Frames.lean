import FastPg.Lib.Scanner
import FastPg.Wire.Encode

/-! # Frames of the fast path

A client reads a response message by message, by the length that each states. What
the fast path writes is read back as the messages that answer the query, with the text
of every value, as long as the numbers of the response fit their fields.
-/

namespace FastPg.Wire.Response

open Scanner List

/-! ## The client -/

inductive Message where
  | emptyQueryResponse
  | rowDescription (columns : List (Bytes × Nat))
  | dataRow (values : List (Option Bytes))
  | commandComplete (tag : Bytes)
  | readyForQuery (status : UInt8)
  deriving DecidableEq, Repr

def readInt (width : Nat) : Scanner UInt8 Int := do
  return BigEndian.signed width (BigEndian.decode (← take width))

/-- The name and the type of a column, with the other numbers skipped. -/
def readColumn : Scanner UInt8 (Bytes × Nat) := do
  let name ← before 0
  let _ ← take 6
  let typeOid ← take 4
  let _ ← take 8
  return (name, BigEndian.decode typeOid)

def readValue : Scanner UInt8 (Option Bytes) := do
  let length ← readInt 4
  if length = -1 then return none
  else if length < 0 then failure
  else return some (← take length.toNat)

def readBody (letter : UInt8) : Scanner UInt8 Message :=
  if letter = 73 then return .emptyQueryResponse
  else if letter = 84 then do
    let count ← readInt 2
    return .rowDescription (← many readColumn count.toNat)
  else if letter = 68 then do
    let count ← readInt 2
    return .dataRow (← many readValue count.toNat)
  else if letter = 67 then do return .commandComplete (← before 0)
  else if letter = 90 then do return .readyForQuery ((← take 1).headD 0)
  else failure

/-- A message: its letter, its length with the length itself, and all of its body. -/
def readMessage : Scanner UInt8 Message := do
  let letter ← take 1
  let length ← readInt 4
  if length < 4 then failure
  else
    let body ← take (length - 4).toNat
    StateT.lift ((readBody (letter.headD 0)).whole body)

def parseMessages (bytes : Bytes) : Option (List Message) :=
  readMessage.upToEnd bytes.length bytes

/-! ## What is sent -/

def valueText : Value → Option Bytes
  | .null => none
  | .int2 value | .int4 value | .int8 value => some (ascii (toString value))
  | .text value | .rawText value => some value

def tagText (commandTag : Bytes) : Option Nat → Bytes
  | some rows => (if commandTag = ascii "INSERT" then ascii "INSERT 0" else commandTag) ++ [32] ++
      ascii (toString rows)
  | none => commandTag

/-- What the encoders write one after the other, each piece with the message that it
    stands for. -/
def sent (execution : QueryExecution) (status : TransactionStatus) : List (Bytes × Message) :=
  match execution with
  | .empty => [(encodeEmptyQueryUnix, .emptyQueryResponse), ready status]
  | .command tag rows => [(encodeCommandCompleteUnix tag rows, .commandComplete (tagText tag rows)),
      ready (applyCommandTransactionStatus tag status)]
  | .rows result =>
    let tag := result.commandTag.getD (ascii "SELECT")
    let count := some (result.commandRows.getD result.rows.length)
    (encodeRowDescriptionUnix result.fields,
        .rowDescription (result.fields.map fun field => (field.name, field.typeOid))) ::
      (result.rows.map (fun row => (encodeDataRowUnix row, .dataRow (row.map valueText))) ++
        [(encodeCommandCompleteUnix tag count, .commandComplete (tagText tag count)), ready status])
where
  ready (status : TransactionStatus) : Bytes × Message :=
    (encodeReadyForQueryUnix status, .readyForQuery (statusByte status))

/-- Columns can be counted in two bytes, type oids are numbers of four bytes, and names
    and tags have no zero byte. -/
def QueryExecution.Encodable : QueryExecution → Prop
  | .empty => True
  | .command tag _ => 0 ∉ tag
  | .rows result =>
    (result.fields.length < 2 ^ 15 ∧ ∀ row ∈ result.rows, row.length < 2 ^ 15) ∧
      (∀ field ∈ result.fields, 0 ∉ field.name ∧ field.typeOid < 2 ^ 32) ∧
      0 ∉ result.commandTag.getD (ascii "SELECT")

/-! ## Bodies are read back -/

theorem flatMap_sent (execution : QueryExecution) (status : TransactionStatus) :
    (fastResponse execution status).1 = (sent execution status).flatMap Prod.fst := by
  cases execution <;>
    simp [fastResponse, encodeSimpleExecutionUnixResponse, sent, sent.ready, flatMap_map]

/-- A number of a field that is wide enough. -/
theorem reads_readInt {width n : Nat} (small : 2 * n < 2 ^ (8 * width)) :
    Decodes (readInt width) (n : Int) (put width n) := by
  have read := (Decodes.take (BigEndian.length_encode width n)).map
    fun bytes => BigEndian.signed width (BigEndian.decode bytes)
  have below : n < 256 ^ width := by
    rw [show 256 = 2 ^ 8 from rfl, ← pow_mul]
    omega
  rwa [BigEndian.decode_encode, Nat.mod_eq_of_lt below, BigEndian.signed_of_lt small] at read

theorem reads_readColumn {field : Column} (name : 0 ∉ field.name) (small : field.typeOid < 2 ^ 32) :
    Decodes readColumn (field.name, field.typeOid) (encodeFieldUnix field) := by
  have oid : BigEndian.decode (put 4 field.typeOid) = field.typeOid := by
    rw [put, BigEndian.decode_encode, Nat.mod_eq_of_lt (by simpa using small)]
  have shape : encodeFieldUnix field = (field.name ++ [0]) ++ ((put 4 0 ++ put 2 0) ++
      (put 4 field.typeOid ++ (put 2 0 ++ put 4 0 ++ put 2 0))) := by
    simp [encodeFieldUnix]
  have last := (Decodes.take (show (put 2 0 ++ put 4 0 ++ put 2 0).length = 8 from rfl)).map
    fun _ => (field.name, BigEndian.decode (put 4 field.typeOid))
  rw [oid] at last
  rw [shape, readColumn]
  refine (Decodes.before name).bind ?_
  refine (Decodes.take (show (put 4 0 ++ put 2 0).length = 6 from rfl)).bind ?_
  refine (Decodes.take (BigEndian.length_encode 4 field.typeOid)).bind ?_
  rwa [← put, oid]

theorem reads_readValue {value : Value} (small : (encodeTextField value).length < 2 ^ 31) :
    Decodes readValue (valueText value) (encodeTextField value) := by
  have some : ∀ bytes : Bytes, (encodeTextBytes bytes).length < 2 ^ 31 →
      Decodes readValue (some bytes) (encodeTextBytes bytes) := by
    intro bytes short
    rw [encodeTextBytes, length_append] at short
    have length : Decodes (readInt 4) _ (put 4 bytes.length) := reads_readInt (by omega)
    refine length.bind ?_
    rw [if_neg (by omega), if_neg (by omega)]
    exact (Decodes.take (by simp)).map some
  cases value with
  | null => exact fun rest => rfl
  | int2 value | int4 value | int8 value | text value | rawText value => exact some _ small

theorem putCommandCompleteTagUnix_eq (tag : Bytes) (rows : Option Nat) :
    putCommandCompleteTagUnix tag rows = tagText tag rows := by
  cases rows with
  | some rows => rw [putCommandCompleteTagUnix_some, tagText, ascii_toString_nat]
  | none =>
    simp only [putCommandCompleteTagUnix, Prod.mk.injEq, and_true, reduceCtorEq, and_false, if_false]
    split_ifs <;> simp_all [tagText]

theorem zero_notMem_tagText {tag : Bytes} (clean : 0 ∉ tag) (rows : Option Nat) :
    0 ∉ tagText tag rows := by
  cases rows with
  | none => exact clean
  | some rows =>
    have digit : ∀ c : Char, c.isDigit = true → asciiByte c ≠ 0 := by
      intro c digit
      have mem := Select.digit_cases digit
      fin_cases mem <;> decide
    have front : 0 ∉ if tag = ascii "INSERT" then ascii "INSERT 0" else tag := by
      split
      case isTrue => decide
      case isFalse => exact clean
    rw [tagText, mem_append, mem_append, ascii_toString_nat, putDecimalUnix_eq]
    rintro ((mem | mem) | mem)
    · exact front mem
    · exact absurd mem (by decide)
    · obtain ⟨c, mem, zero⟩ := mem_map.mp mem
      exact digit c (Select.digit_of_mem mem) zero

/-- The frame is a message whose body is read as this one. -/
def Framed (frame : Bytes) (sent : Message) : Prop :=
  ∃ letter body, frame = message letter body ∧
    (body.length < 2 ^ 31 → Decodes (readBody letter) sent body)

theorem framed_emptyQuery : Framed encodeEmptyQueryUnix .emptyQueryResponse :=
  ⟨73, [], rfl, fun _ => .pure⟩

theorem framed_readyForQuery (status : TransactionStatus) :
    Framed (encodeReadyForQueryUnix status) (.readyForQuery (statusByte status)) :=
  ⟨90, [statusByte status], rfl, fun _ _ => rfl⟩

theorem framed_commandComplete {tag : Bytes} (clean : 0 ∉ tag) (rows : Option Nat) :
    Framed (encodeCommandCompleteUnix tag rows) (.commandComplete (tagText tag rows)) := by
  refine ⟨67, tagText tag rows ++ [0], ?_, fun _ => ?_⟩
  · rw [encodeCommandCompleteUnix_eq, commandCompleteMessage_eq, putCommandCompleteTagUnix_eq]
    rfl
  · exact (Decodes.before (zero_notMem_tagText clean rows)).map Message.commandComplete

theorem framed_dataRow {row : List Value} (few : row.length < 2 ^ 15) :
    Framed (encodeDataRowUnix row) (.dataRow (row.map valueText)) := by
  refine ⟨68, put 2 row.length ++ row.flatMap encodeTextField, encodeDataRowUnix_eq row,
    fun small => ?_⟩
  rw [length_append] at small
  have count : Decodes (readInt 2) _ (put 2 row.length) := reads_readInt (by omega)
  have values : Decodes (many readValue row.length) _ _ := Decodes.many fun value mem =>
    reads_readValue (lt_of_le_of_lt (FunctionCall.length_le_flatMap mem) (by omega))
  exact count.bind (values.map Message.dataRow)

theorem framed_rowDescription {fields : List Column} (few : fields.length < 2 ^ 15)
    (fine : ∀ field ∈ fields, 0 ∉ field.name ∧ field.typeOid < 2 ^ 32) :
    Framed (encodeRowDescriptionUnix fields)
      (.rowDescription (fields.map fun field => (field.name, field.typeOid))) := by
  refine ⟨84, _, encodeRowDescriptionUnix_eq fields, fun _ => ?_⟩
  have count : Decodes (readInt 2) _ (put 2 fields.length) := reads_readInt (by omega)
  have columns : Decodes (many readColumn fields.length) _ _ :=
    Decodes.many fun field mem => reads_readColumn (fine field mem).1 (fine field mem).2
  exact count.bind (columns.map Message.rowDescription)

theorem framed {execution : QueryExecution} (status : TransactionStatus)
    (encodable : execution.Encodable) : ∀ piece ∈ sent execution status, Framed piece.1 piece.2 := by
  cases execution with
  | empty => simp [sent, sent.ready, framed_emptyQuery, framed_readyForQuery]
  | command tag rows => simp [sent, sent.ready, framed_commandComplete encodable, framed_readyForQuery]
  | rows result =>
    obtain ⟨⟨few, narrow⟩, fine, clean⟩ := encodable
    intro piece mem
    rcases mem_cons.mp mem with rfl | mem
    · exact framed_rowDescription few fine
    rcases mem_append.mp mem with mem | mem
    · obtain ⟨row, inside, rfl⟩ := mem_map.mp mem
      exact framed_dataRow (narrow row inside)
    rcases mem_pair.mp mem with rfl | rfl
    · exact framed_commandComplete clean _
    · exact framed_readyForQuery status

/-! ## Frames are read back -/

theorem Framed.reads {sent : Message} {frame : Bytes} (framed : Framed frame sent)
    (small : frame.length < 2 ^ 31) :
    FunctionCall.statedLength frame = (frame.length - 1 : Nat) ∧
      Decodes readMessage sent frame ∧ frame ≠ [] := by
  obtain ⟨letter, body, rfl, read⟩ := framed
  have long : (message letter body).length = body.length + 4 + 1 := by
    simp [message, put, Nat.add_comm]
  have length : Decodes (readInt 4) _ (put 4 (body.length + 4)) := reads_readInt (by omega)
  refine ⟨?_, ?_, cons_ne_nil _ _⟩
  · rw [long, FunctionCall.statedLength, message, put, drop_one, tail_cons,
      take_left' (BigEndian.length_encode ..), BigEndian.decode_encode,
      Nat.mod_eq_of_lt (by omega), BigEndian.signed_of_lt (by omega), Nat.add_sub_cancel]
  · refine (Decodes.take (show [letter].length = 1 from rfl)).bind (length.bind ?_)
    rw [if_neg (by omega), ← append_nil body]
    refine (Decodes.take (by simp)).bind ?_
    rw [headD_cons, (read (by omega)).whole]
    exact fun rest => rfl

/-- Every piece that the fast path writes states its own length, and a client reads the
    response as the messages that answer the query. -/
theorem fastResponse_read (execution : QueryExecution) (status : TransactionStatus)
    (encodable : execution.Encodable)
    (small : (fastResponse execution status).1.length < 2 ^ 31) :
    (fastResponse execution status).1 = (sent execution status).flatMap Prod.fst ∧
      (∀ piece ∈ sent execution status,
        FunctionCall.statedLength piece.1 = (piece.1.length - 1 : Nat)) ∧
      parseMessages (fastResponse execution status).1 =
        some ((sent execution status).map Prod.snd) := by
  rw [flatMap_sent] at small ⊢
  have each (piece : Bytes × Message) (mem : piece ∈ sent execution status) :=
    (framed status encodable piece mem).reads
      (lt_of_le_of_lt (FunctionCall.length_le_flatMap mem) small)
  exact ⟨rfl, fun piece mem => (each piece mem).1,
    Decodes.upToEnd (fun piece mem => (each piece mem).2) (le_refl _)⟩

theorem fastResponse_read_null :
    parseMessages (fastResponse (.rows ⟨[⟨ascii "a", .int4, 23⟩], [[.null]], none, none⟩) .idle).1 =
      some [.rowDescription [(ascii "a", 23)], .dataRow [none], .commandComplete (ascii "SELECT 1"),
        .readyForQuery 73] :=
  (fastResponse_read (.rows ⟨[⟨ascii "a", .int4, 23⟩], [[.null]], none, none⟩) .idle (by
    simp [QueryExecution.Encodable, ascii, asciiByte]) (by decide)).2.2

end FastPg.Wire.Response
