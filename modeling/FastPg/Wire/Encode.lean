import FastPg.Wire.Fastpath
import FastPg.Wire.Status

/-! # Two encoders of a result

Results of simple queries are answered on two paths. The general one makes
messages, which the protocol library encodes. The fast one writes the bytes
itself, with the length of each message counted beforehand. Where they differ is
in the tag after a row set, since the general path counts the rows it sends and
writes every `INSERT` in upper case, and in columns without a type oid.

Strings are given by their UTF-8 bytes.
-/

namespace FastPg.Wire.Response

open List Option

/-! ## Results -/

def ascii (text : String) : Bytes := text.toList.map asciiByte

inductive PgType where
  | int2
  | int4
  | int8
  | varchar
  deriving DecidableEq, Repr

structure Column where
  name : Bytes
  dataType : PgType
  typeOid : Nat
  deriving DecidableEq, Repr

inductive Value where
  | int2 (value : Int)
  | int4 (value : Int)
  | int8 (value : Int)
  | text (value : Bytes)
  | rawText (value : Bytes)
  | null
  deriving DecidableEq, Repr

structure QueryResult where
  fields : List Column
  rows : List (List Value)
  commandTag : Option Bytes
  commandRows : Option Nat
  deriving DecidableEq, Repr

/-- The executions that the fast path accepts. It leaves all others to the general
    path. -/
inductive QueryExecution where
  | empty
  | command (tag : Bytes) (rows : Option Nat)
  | rows (result : QueryResult)
  deriving DecidableEq, Repr

/-! ## The transaction status -/

def isAsciiWhitespace (byte : UInt8) : Bool := byte ∈ [32, 9, 10, 12, 13]

def toAsciiUppercase (byte : UInt8) : UInt8 := if 97 ≤ byte ∧ byte ≤ 122 then byte - 32 else byte

def eqIgnoreAsciiCase (first second : Bytes) : Bool :=
  first.map toAsciiUppercase = second.map toAsciiUppercase

/-- The first word of `split_whitespace`, in lower case. -/
def firstWord (tag : Bytes) : Text :=
  (((utf8Chars tag).dropWhile isWhitespace).takeWhile
    fun c => !isWhitespace c).map Char.toLower

def applyCommandTransactionStatus (tag : Bytes) (status : TransactionStatus) : TransactionStatus :=
  if tag = ascii "BEGIN" then status.toInTransactionState
  else if tag = ascii "COMMIT" ∨ tag = ascii "END" ∨ tag = ascii "ROLLBACK" then status.toIdleState
  else
    match (tag.find? fun byte => !isAsciiWhitespace byte).map toAsciiUppercase with
    | some first =>
      if first ∈ ascii "BCER" then
        if firstWord tag = "begin".toList then status.toInTransactionState
        else if firstWord tag = "commit".toList ∨ firstWord tag = "end".toList ∨
            firstWord tag = "rollback".toList then status.toIdleState
        else status
      else status
    | none => status

def statusByte : TransactionStatus → UInt8
  | .idle => 73
  | .transaction => 84
  | .error => 69

/-! ## The general path -/

structure FieldDescription where
  name : Bytes
  tableId : Nat
  columnId : Nat
  typeId : Nat
  typeSize : Nat
  typeModifier : Nat
  formatCode : Nat
  deriving DecidableEq, Repr

inductive BackendMessage where
  | emptyQueryResponse
  | rowDescription (fields : List FieldDescription)
  | dataRow (data : Bytes) (fieldCount : Nat)
  | commandComplete (tag : Bytes)
  | readyForQuery (status : TransactionStatus)
  deriving DecidableEq, Repr

/-- A number in so many bytes, as the casts to signed types leave it. -/
def put (width n : Nat) : Bytes := BigEndian.encode width n

def FieldDescription.encode (field : FieldDescription) : Bytes :=
  field.name ++ [0] ++ put 4 field.tableId ++ put 2 field.columnId ++ put 4 field.typeId ++
    put 2 field.typeSize ++ put 4 field.typeModifier ++ put 2 field.formatCode

/-- A message of the protocol: its letter, its length with the length itself, and its body. -/
def message (letter : UInt8) (body : Bytes) : Bytes := letter :: (put 4 (body.length + 4) ++ body)

def BackendMessage.encode : BackendMessage → Bytes
  | .emptyQueryResponse => message 73 []
  | .rowDescription fields =>
    message 84 (put 2 fields.length ++ fields.flatMap FieldDescription.encode)
  | .dataRow data fieldCount => message 68 (put 2 fieldCount ++ data)
  | .commandComplete tag => message 67 (tag ++ [0])
  | .readyForQuery status => message 90 [statusByte status]

def PgType.oid : PgType → Nat
  | .int2 => 21
  | .int4 => 23
  | .int8 => 20
  | .varchar => 1043

/-- The oid of the library's type for a column. The library knows the types in
    `known` by their oids, and none with the oid 0. -/
def pgwireTypeForOid (known : Nat → Bool) (typeOid : Nat) (fallback : PgType) : Nat :=
  match if typeOid ≠ 0 ∧ known typeOid then some typeOid else none with
  | some oid => oid
  | none => if typeOid = 0 then fallback.oid else typeOid

def fieldDescription (known : Nat → Bool) (field : Column) : FieldDescription :=
  ⟨field.name, 0, 0, pgwireTypeForOid known field.typeOid field.dataType, 0, 0, 0⟩

def rowDescription (known : Nat → Bool) (fields : List Column) : BackendMessage :=
  .rowDescription (fields.map (fieldDescription known))

def encodeTextBytes (bytes : Bytes) : Bytes := put 4 bytes.length ++ bytes

def encodeTextField : Value → Bytes
  | .null => put 4 (BigEndian.word 4 (-1))
  | .int2 value | .int4 value | .int8 value => encodeTextBytes (ascii (toString value))
  | .text value | .rawText value => encodeTextBytes value

/-- A row of a result in text format. -/
def encodeRow (values : List Value) : BackendMessage :=
  .dataRow (values.flatMap encodeTextField) values.length

def commandCompleteMessage (commandTag : Bytes) (rows : Option Nat) : BackendMessage :=
  .commandComplete
    (if (commandTag, rows) = (ascii "BEGIN", none) then ascii "BEGIN"
    else if (commandTag, rows) = (ascii "COMMIT", none) then ascii "COMMIT"
    else if (commandTag, rows) = (ascii "END", none) then ascii "END"
    else if (commandTag, rows) = (ascii "ROLLBACK", none) then ascii "ROLLBACK"
    else if (commandTag, rows) = (ascii "SELECT", some 1) then ascii "SELECT 1"
    else if (commandTag, rows) = (ascii "UPDATE", some 1) then ascii "UPDATE 1"
    else if (commandTag, rows) = (ascii "INSERT", some 1) then ascii "INSERT 0 1"
    else match rows with
      | some rows => commandTag ++ (if commandTag = ascii "INSERT" then ascii " 0" else []) ++
          ascii " " ++ ascii (toString rows)
      | none => commandTag)

def queryResponseCommandTag (tag : Bytes) : Bytes :=
  if eqIgnoreAsciiCase tag (ascii "INSERT") then ascii "INSERT 0" else tag

def feedQueryResult (known : Nat → Bool) (result : QueryResult) : List BackendMessage :=
  let commandTag := (result.commandTag.map queryResponseCommandTag).getD (ascii "SELECT")
  rowDescription known result.fields :: (result.rows.map encodeRow ++
    [commandCompleteMessage commandTag (some result.rows.length)])

def feedSimpleExecution (known : Nat → Bool) (execution : QueryExecution)
    (status : TransactionStatus) : List BackendMessage × TransactionStatus :=
  match execution with
  | .empty => ([.emptyQueryResponse], status)
  | .command tag rows =>
    ([commandCompleteMessage tag rows], applyCommandTransactionStatus tag status)
  | .rows result => (feedQueryResult known result, status)

/-- What the client gets on the general path, and the status that is kept. -/
def generalResponse (known : Nat → Bool) (execution : QueryExecution) (status : TransactionStatus) :
    Bytes × TransactionStatus :=
  let (messages, status) := feedSimpleExecution known execution status
  ((messages ++ [BackendMessage.readyForQuery status]).flatMap BackendMessage.encode, status)

/-! ## The fast path -/

def encodeMessageHeaderUnix (tag : UInt8) (bodyLen : Nat) : Bytes := tag :: put 4 (bodyLen + 4)

def encodeEmptyQueryUnix : Bytes := encodeMessageHeaderUnix 73 0

def encodeReadyForQueryUnix (status : TransactionStatus) : Bytes :=
  encodeMessageHeaderUnix 90 1 ++ [statusByte status]

def decimalLen (value : Nat) : Nat := if value < 10 then 1 else decimalLen (value / 10) + 1

/-- The digits of the value, which fill a buffer from its end. -/
def putDecimalUnix (value : Nat) : Bytes :=
  if value < 10 then [UInt8.ofNat (48 + value % 10)]
  else putDecimalUnix (value / 10) ++ [UInt8.ofNat (48 + value % 10)]

def commandCompleteTagLen (commandTag : Bytes) (rows : Option Nat) : Nat :=
  if (commandTag, rows) = (ascii "BEGIN", none) then 5
  else if (commandTag, rows) = (ascii "COMMIT", none) then 6
  else if (commandTag, rows) = (ascii "END", none) then 3
  else if (commandTag, rows) = (ascii "ROLLBACK", none) then 8
  else if (commandTag, rows) = (ascii "SELECT", some 1) then 8
  else if (commandTag, rows) = (ascii "UPDATE", some 1) then 8
  else if (commandTag, rows) = (ascii "INSERT", some 1) then 10
  else match rows with
    | some rows => commandTag.length + (if commandTag = ascii "INSERT" then 3 else 1) + decimalLen rows
    | none => commandTag.length

def putCommandCompleteTagUnix (commandTag : Bytes) (rows : Option Nat) : Bytes :=
  if (commandTag, rows) = (ascii "BEGIN", none) then ascii "BEGIN"
  else if (commandTag, rows) = (ascii "COMMIT", none) then ascii "COMMIT"
  else if (commandTag, rows) = (ascii "END", none) then ascii "END"
  else if (commandTag, rows) = (ascii "ROLLBACK", none) then ascii "ROLLBACK"
  else if (commandTag, rows) = (ascii "SELECT", some 1) then ascii "SELECT 1"
  else if (commandTag, rows) = (ascii "UPDATE", some 1) then ascii "UPDATE 1"
  else if (commandTag, rows) = (ascii "INSERT", some 1) then ascii "INSERT 0 1"
  else match rows with
    | some rows => commandTag ++ (if commandTag = ascii "INSERT" then ascii " 0" else []) ++ [32] ++
        putDecimalUnix rows
    | none => commandTag

def encodeCommandCompleteUnix (commandTag : Bytes) (rows : Option Nat) : Bytes :=
  encodeMessageHeaderUnix 67 (commandCompleteTagLen commandTag rows + 1) ++
    putCommandCompleteTagUnix commandTag rows ++ [0]

def encodeFieldUnix (field : Column) : Bytes :=
  field.name ++ [0] ++ put 4 0 ++ put 2 0 ++ put 4 field.typeOid ++ put 2 0 ++ put 4 0 ++ put 2 0

def encodeRowDescriptionUnix (fields : List Column) : Bytes :=
  let bodyLen := fields.foldl (fun bodyLen field => bodyLen + (field.name.length + 1 + 18)) 2
  encodeMessageHeaderUnix 84 bodyLen ++ put 2 fields.length ++ fields.flatMap encodeFieldUnix

def decimalI64Len (value : Int) : Nat :=
  if value < 0 then 1 + decimalLen value.natAbs else decimalLen value.toNat

def encodedTextFieldLen : Value → Nat
  | .null => 4
  | .int2 value | .int4 value | .int8 value => 4 + decimalI64Len value
  | .text value | .rawText value => 4 + value.length

def encodeDataRowUnix (row : List Value) : Bytes :=
  encodeMessageHeaderUnix 68 (2 + (row.map encodedTextFieldLen).sum) ++ put 2 row.length ++
    row.flatMap encodeTextField

def encodeSimpleExecutionUnixResponse (execution : QueryExecution) (status : TransactionStatus) :
    Bytes × TransactionStatus :=
  match execution with
  | .empty => (encodeEmptyQueryUnix, status)
  | .command tag rows =>
    (encodeCommandCompleteUnix tag rows, applyCommandTransactionStatus tag status)
  | .rows result =>
    let commandTag := result.commandTag.getD (ascii "SELECT")
    (encodeRowDescriptionUnix result.fields ++ result.rows.flatMap encodeDataRowUnix ++
      encodeCommandCompleteUnix commandTag (some (result.commandRows.getD result.rows.length)),
      status)

/-- What the client gets on the fast path, and the status that is kept. -/
def fastResponse (execution : QueryExecution) (status : TransactionStatus) :
    Bytes × TransactionStatus :=
  let (response, status) := encodeSimpleExecutionUnixResponse execution status
  (response ++ encodeReadyForQueryUnix status, status)

/-! ## Decimal numbers -/

variable (n : Nat)

theorem digitByte {n : Nat} (small : n < 10) : asciiByte (Nat.digitChar n) = UInt8.ofNat (48 + n) := by
  interval_cases n <;> rfl

theorem putDecimalUnix_eq : putDecimalUnix n = (Nat.toDigits 10 n).map asciiByte := by
  induction n using putDecimalUnix.induct with
  | case1 n small =>
    rw [putDecimalUnix, if_pos small, Nat.toDigits_of_lt_base small, map_singleton,
      digitByte small, Nat.mod_eq_of_lt small]
  | case2 n large ih =>
    rw [putDecimalUnix, if_neg large, Nat.toDigits_of_base_le (by decide) (Nat.not_lt.mp large),
      map_append, ← ih, map_singleton, digitByte (Nat.mod_lt _ (by decide))]

theorem ascii_toString_nat : ascii (toString n) = putDecimalUnix n := by
  rw [putDecimalUnix_eq]
  exact congrArg (List.map asciiByte) Nat.toList_repr

theorem length_putDecimalUnix : (putDecimalUnix n).length = decimalLen n := by
  induction n using putDecimalUnix.induct with
  | case1 n small => rw [putDecimalUnix, if_pos small, decimalLen, if_pos small]; rfl
  | case2 n large ih =>
    rw [putDecimalUnix, if_neg large, decimalLen, if_neg large, length_append, ih]
    rfl

/-- The number that decimal digits stand for. -/
def readDecimal (digits : Bytes) : Nat := digits.foldl (fun n digit => 10 * n + (digit.toNat - 48)) 0

variable (commandTag : Bytes) (fields : List Column)

theorem readDecimal_putDecimalUnix : readDecimal (putDecimalUnix n) = n := by
  have digit : ∀ d : Nat, d < 10 → (UInt8.ofNat (48 + d)).toNat - 48 = d := by
    intro d small
    interval_cases d <;> rfl
  induction n using putDecimalUnix.induct with
  | case1 n small =>
    rw [putDecimalUnix, if_pos small, readDecimal, foldl_cons, foldl_nil,
      digit _ (Nat.mod_lt _ (by decide))]
    omega
  | case2 n large ih =>
    rw [readDecimal] at ih
    rw [putDecimalUnix, if_neg large, readDecimal, foldl_append, ih, foldl_cons,
      foldl_nil, digit _ (Nat.mod_lt _ (by decide))]
    omega

theorem putDecimalUnix_inj {n m : Nat} : putDecimalUnix n = putDecimalUnix m ↔ n = m := by
  refine ⟨fun same => ?_, fun same => same ▸ rfl⟩
  rw [← readDecimal_putDecimalUnix n, same, readDecimal_putDecimalUnix]

/-! ## Lengths counted beforehand -/

theorem message_eq (letter : UInt8) (body : Bytes) :
    message letter body = encodeMessageHeaderUnix letter body.length ++ body := rfl

theorem length_encodeTextField (value : Value) :
    (encodeTextField value).length = encodedTextFieldLen value := by
  have number : ∀ number : Int, (ascii (toString number)).length = decimalI64Len number := by
    intro number
    cases number with
    | ofNat n =>
      have same : ascii (toString (Int.ofNat n)) = putDecimalUnix n := ascii_toString_nat n
      rw [same, length_putDecimalUnix, decimalI64Len, if_neg (by simp)]
      rfl
    | negSucc n =>
      rw [ascii, Select.toList_toString_negSucc, map_cons, ← putDecimalUnix_eq,
        length_cons, length_putDecimalUnix, decimalI64Len, if_pos (Int.negSucc_lt_zero n),
        Nat.add_comm]
      rfl
  cases value with
  | null => rfl
  | int2 value | int4 value | int8 value =>
    rw [encodeTextField, encodeTextBytes, length_append, put, BigEndian.length_encode, number]
    rfl
  | text value | rawText value =>
    simp [encodeTextField, encodeTextBytes, put, BigEndian.length_encode, encodedTextFieldLen]

theorem encodeDataRowUnix_eq (row : List Value) : encodeDataRowUnix row = (encodeRow row).encode := by
  have length : (row.flatMap encodeTextField).length = (row.map encodedTextFieldLen).sum := by
    rw [length_flatMap]
    exact congrArg List.sum (map_congr_left fun value _ => length_encodeTextField value)
  rw [encodeDataRowUnix, encodeRow, BackendMessage.encode, message_eq, length_append, length, put,
    BigEndian.length_encode, append_assoc]

theorem length_putCommandCompleteTagUnix (rows : Option Nat) :
    (putCommandCompleteTagUnix commandTag rows).length = commandCompleteTagLen commandTag rows := by
  unfold putCommandCompleteTagUnix commandCompleteTagLen
  iterate 7
    split
    · rfl
  cases rows with
  | none => rfl
  | some rows =>
    have mark : (if commandTag = ascii "INSERT" then ascii " 0" else []).length + 1 =
        if commandTag = ascii "INSERT" then 3 else 1 := by
      split <;> rfl
    simp only [length_append, length_putDecimalUnix, length_singleton, ← mark]
    omega

theorem commandCompleteMessage_eq (rows : Option Nat) :
    commandCompleteMessage commandTag rows =
      .commandComplete (putCommandCompleteTagUnix commandTag rows) := by
  unfold commandCompleteMessage putCommandCompleteTagUnix
  cases rows with
  | none => rfl
  | some rows =>
    dsimp only
    rw [ascii_toString_nat]
    rfl

theorem encodeCommandCompleteUnix_eq (rows : Option Nat) :
    encodeCommandCompleteUnix commandTag rows = (commandCompleteMessage commandTag rows).encode := by
  rw [encodeCommandCompleteUnix, commandCompleteMessage_eq, BackendMessage.encode, message_eq,
    length_append, length_putCommandCompleteTagUnix, append_assoc]
  rfl

/-! ## Columns -/

theorem length_encodeFieldUnix (field : Column) :
    (encodeFieldUnix field).length = field.name.length + 1 + 18 := by
  simp [encodeFieldUnix, put, BigEndian.length_encode]

theorem foldl_length (start : Nat) :
    fields.foldl (fun bodyLen field => bodyLen + (field.name.length + 1 + 18)) start =
      start + (fields.flatMap encodeFieldUnix).length := by
  induction fields generalizing start with
  | nil => rfl
  | cons field fields ih =>
    rw [foldl_cons, ih, flatMap_cons, length_append, length_encodeFieldUnix,
      Nat.add_assoc]

theorem encodeRowDescriptionUnix_eq :
    encodeRowDescriptionUnix fields =
      message 84 (put 2 fields.length ++ fields.flatMap encodeFieldUnix) := by
  rw [encodeRowDescriptionUnix, foldl_length, message_eq, length_append, put,
    BigEndian.length_encode, append_assoc]

theorem message_inj {letter : UInt8} {first second : Bytes} :
    message letter first = message letter second ↔ first = second := by
  refine ⟨fun same => ?_, fun same => same ▸ rfl⟩
  have tails := congrArg (List.drop 5) same
  exact tails

/-- A column is described in the same way by both paths if it has a type oid. -/
theorem encodeFieldUnix_eq_iff (known : Nat → Bool) (field : Column) :
    encodeFieldUnix field = (fieldDescription known field).encode ↔ field.typeOid ≠ 0 := by
  have zero : pgwireTypeForOid known field.typeOid field.dataType =
      if field.typeOid = 0 then field.dataType.oid else field.typeOid := by
    rw [pgwireTypeForOid]
    split_ifs <;> simp_all
  have ne : put 4 0 ≠ put 4 field.dataType.oid := by
    cases field.dataType <;> decide
  have same : encodeFieldUnix field = (fieldDescription known field).encode ↔
      put 4 field.typeOid = put 4 (pgwireTypeForOid known field.typeOid field.dataType) := by
    simp [encodeFieldUnix, FieldDescription.encode, fieldDescription]
  rw [same, zero]
  split
  · rename_i none
    rw [none]
    simpa using ne
  · rename_i some
    simpa using some

theorem flatMap_eq_iff {α : Type} {f g : α → Bytes} {items : List α}
    (lengths : ∀ item, (f item).length = (g item).length) :
    items.flatMap f = items.flatMap g ↔ ∀ item ∈ items, f item = g item := by
  induction items with
  | nil => simp
  | cons item items ih =>
    rw [flatMap_cons, flatMap_cons, forall_mem_cons, ← ih]
    constructor
    · exact fun same => append_inj same (lengths item)
    · rintro ⟨first, rest⟩
      rw [first, rest]

theorem length_encode_fieldDescription (known : Nat → Bool) (field : Column) :
    (encodeFieldUnix field).length = (fieldDescription known field).encode.length := by
  simp [encodeFieldUnix, FieldDescription.encode, fieldDescription, put, BigEndian.length_encode]

theorem rowDescription_eq_iff (known : Nat → Bool) (fields : List Column) :
    encodeRowDescriptionUnix fields = (rowDescription known fields).encode ↔
      ∀ field ∈ fields, field.typeOid ≠ 0 := by
  rw [encodeRowDescriptionUnix_eq, rowDescription, BackendMessage.encode, message_inj,
    length_map, append_cancel_left_eq, flatMap_map,
    flatMap_eq_iff (length_encode_fieldDescription known)]
  exact forall₂_congr fun field _ => encodeFieldUnix_eq_iff known field

theorem length_rowDescription (known : Nat → Bool) (fields : List Column) :
    (encodeRowDescriptionUnix fields).length = (rowDescription known fields).encode.length := by
  have each : (fields.flatMap encodeFieldUnix).length =
      ((fields.map (fieldDescription known)).flatMap FieldDescription.encode).length := by
    rw [flatMap_map, length_flatMap, length_flatMap]
    exact congrArg List.sum
      (map_congr_left fun field _ => length_encode_fieldDescription known field)
  rw [encodeRowDescriptionUnix_eq, rowDescription, BackendMessage.encode, message_eq, message_eq]
  simp only [encodeMessageHeaderUnix, length_append, length_cons, put,
    BigEndian.length_encode, each]

/-! ## Tags of row sets -/

theorem putCommandCompleteTagUnix_some (rows : Nat) :
    putCommandCompleteTagUnix commandTag (some rows) =
      (if commandTag = ascii "INSERT" then ascii "INSERT 0" else commandTag) ++ [32] ++
        putDecimalUnix rows := by
  have one : putDecimalUnix 1 = [49] := by rw [putDecimalUnix]; rfl
  unfold putCommandCompleteTagUnix
  simp only [Prod.mk.injEq, reduceCtorEq, and_false, if_false, some.injEq]
  split
  · rename_i select
    rw [select.1, select.2, one]
    rfl
  · split
    · rename_i update
      rw [update.1, update.2, one]
      rfl
    · split
      · rename_i insert
        rw [insert.1, insert.2, one]
        rfl
      · split
        · rename_i insert
          rw [insert]
          rfl
        · simp

/-- Both paths write the same tag after a row set if they count the same rows and
    the tag is not an `INSERT` in another case. -/
theorem tag_eq_iff (first second : Nat) :
    putCommandCompleteTagUnix commandTag (some first) =
        putCommandCompleteTagUnix (queryResponseCommandTag commandTag) (some second) ↔
      first = second ∧
        (eqIgnoreAsciiCase commandTag (ascii "INSERT") = true → commandTag = ascii "INSERT") := by
  rw [putCommandCompleteTagUnix_some, putCommandCompleteTagUnix_some, queryResponseCommandTag]
  cases insert : eqIgnoreAsciiCase commandTag (ascii "INSERT") with
  | false =>
    have other : commandTag ≠ ascii "INSERT" := by
      rintro rfl
      simp [eqIgnoreAsciiCase] at insert
    simp only [Bool.false_eq_true, if_false, if_neg other, append_cancel_left_eq,
      putDecimalUnix_inj]
    simp
  | true =>
    rw [if_pos rfl, if_neg (show ascii "INSERT 0" ≠ ascii "INSERT" by decide)]
    by_cases upper : commandTag = ascii "INSERT"
    · rw [if_pos upper, append_cancel_left_eq, putDecimalUnix_inj]
      simp [upper]
    · have length : commandTag.length = 6 := by
        have same := congrArg List.length (of_decide_eq_true insert)
        rw [length_map, length_map] at same
        exact same
      rw [if_neg upper]
      constructor
      · intro same
        have front := congrArg (List.take 6) same
        rw [append_assoc, take_left' length] at front
        exact absurd front upper
      · exact fun fine => absurd (fine.2 rfl) upper

/-! ## Whole responses -/

/-- The result is one that both paths encode in the same way: every column of a row
    set has a type oid, the count of rows is that of the rows, and the tag is no
    `INSERT` in another case. -/
def QueryExecution.isPlain : QueryExecution → Prop
  | .empty | .command .. => True
  | .rows result =>
    (∀ field ∈ result.fields, field.typeOid ≠ 0) ∧
      result.commandRows.getD result.rows.length = result.rows.length ∧
      (eqIgnoreAsciiCase (result.commandTag.getD (ascii "SELECT")) (ascii "INSERT") = true →
        result.commandTag.getD (ascii "SELECT") = ascii "INSERT")

theorem generalResponse_rows (known : Nat → Bool) (result : QueryResult) (status : TransactionStatus) :
    generalResponse known (.rows result) status =
      ((rowDescription known result.fields).encode ++ (result.rows.flatMap encodeDataRowUnix ++
        (encodeCommandCompleteUnix
          (queryResponseCommandTag (result.commandTag.getD (ascii "SELECT")))
          (some result.rows.length) ++ encodeReadyForQueryUnix status)), status) := by
  have rows : result.rows.flatMap encodeDataRowUnix =
      (result.rows.map encodeRow).flatMap BackendMessage.encode := by
    rw [flatMap_map]
    exact flatMap_congr fun row _ => encodeDataRowUnix_eq row
  have tag : (result.commandTag.map queryResponseCommandTag).getD (ascii "SELECT") =
      queryResponseCommandTag (result.commandTag.getD (ascii "SELECT")) := by
    cases result.commandTag with
    | none => rfl
    | some tag => rfl
  rw [rows, encodeCommandCompleteUnix_eq, ← tag]
  simp [generalResponse, feedSimpleExecution, feedQueryResult, BackendMessage.encode, message_eq,
    encodeReadyForQueryUnix]

theorem rowsResponse_eq_iff (known : Nat → Bool) (result : QueryResult) (status : TransactionStatus) :
    fastResponse (.rows result) status = generalResponse known (.rows result) status ↔
      (QueryExecution.rows result).isPlain := by
  have parts : ∀ {first second middle third fourth : Bytes} {last : Bytes},
      first.length = second.length →
      (first ++ middle ++ third ++ last = second ++ (middle ++ (fourth ++ last)) ↔
        first = second ∧ third = fourth) := by
    intro first second middle third fourth last lengths
    constructor
    · intro same
      rw [append_assoc, append_assoc] at same
      obtain ⟨front, rest⟩ := append_inj same lengths
      exact ⟨front, by simpa using rest⟩
    · rintro ⟨rfl, rfl⟩
      simp
  have fast : fastResponse (.rows result) status =
      (encodeRowDescriptionUnix result.fields ++ result.rows.flatMap encodeDataRowUnix ++
        encodeCommandCompleteUnix (result.commandTag.getD (ascii "SELECT"))
          (some (result.commandRows.getD result.rows.length)) ++ encodeReadyForQueryUnix status,
        status) := rfl
  rw [fast, generalResponse_rows, Prod.mk.injEq, parts (length_rowDescription known _),
    rowDescription_eq_iff, encodeCommandCompleteUnix_eq, encodeCommandCompleteUnix_eq,
    commandCompleteMessage_eq, commandCompleteMessage_eq, BackendMessage.encode,
    BackendMessage.encode, message_inj, append_cancel_right_eq, tag_eq_iff]
  simp [QueryExecution.isPlain]

theorem fastResponse_eq_iff (known : Nat → Bool) (execution : QueryExecution)
    (status : TransactionStatus) :
    fastResponse execution status = generalResponse known execution status ↔ execution.isPlain := by
  cases execution with
  | empty => exact iff_true_intro rfl
  | command tag rows =>
    have same : encodeCommandCompleteUnix tag rows = (commandCompleteMessage tag rows).encode :=
      encodeCommandCompleteUnix_eq tag rows
    refine iff_true_intro ?_
    simp [fastResponse, encodeSimpleExecutionUnixResponse, generalResponse, feedSimpleExecution, same,
      BackendMessage.encode, message_eq, encodeReadyForQueryUnix]
  | rows result => exact rowsResponse_eq_iff known result status

/-- A result without rows whose command changed one row. -/
def uncountedRow : QueryResult := ⟨[⟨ascii "a", .int4, 23⟩], [], some (ascii "UPDATE"), some 1⟩

/-- A result whose tag is in lower case. -/
def lowerCaseTag : QueryResult := ⟨[⟨ascii "a", .int4, 23⟩], [], some (ascii "insert"), none⟩

/-- A result with a column that has no type oid. -/
def untypedColumn : QueryResult := ⟨[⟨ascii "a", .int4, 0⟩], [], none, none⟩

theorem responses_differ :
    fastResponse (.rows uncountedRow) .idle ≠ generalResponse (fun _ => true) (.rows uncountedRow) .idle ∧
      fastResponse (.rows lowerCaseTag) .idle ≠
        generalResponse (fun _ => true) (.rows lowerCaseTag) .idle ∧
      fastResponse (.rows untypedColumn) .idle ≠
        generalResponse (fun _ => true) (.rows untypedColumn) .idle := by
  refine ⟨fun same => ?_, fun same => ?_, fun same => ?_⟩
  · exact absurd ((rowsResponse_eq_iff _ _ _).mp same).2.1 (by decide)
  · exact absurd ((rowsResponse_eq_iff _ _ _).mp same).2.2 (by decide)
  · exact absurd ((rowsResponse_eq_iff _ _ _).mp same).1 (by decide)

end FastPg.Wire.Response
