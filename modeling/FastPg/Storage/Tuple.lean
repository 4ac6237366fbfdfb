import FastPg.Storage.Page

/-! # Stored tuples and index keys

A row arrives as attribute words with flags, lengths and the memory they point
to. It is stored as a header, a null bitmap, a directory with one entry per
attribute and an aligned payload. Index keys are read either from the incoming
row or from the stored tuple. Words are little-endian.
-/

namespace FastPg.Storage

/-- One attribute of an incoming row. `memory` is what a by-reference word
    points to; the word 0 is the null pointer. -/
structure InputAttr where
  isNull : Bool
  byval : Bool
  value : Nat
  memory : Bytes
  valueLen : Nat
  deriving DecidableEq, Repr

abbrev RowInput := List InputAttr

inductive DecodedDatum where
  | null
  | byValue (value : Nat)
  | byRef (bytes : Bytes)
  deriving DecidableEq, Repr

def tupleMagic : Bytes := [0x46, 0x50, 0x32, 0x54]

def tupleHeaderLen : Nat := 16

def attrEntryLen : Nat := 24

def alignDatum (n : Nat) : Nat := (n + (datumAlignment - 1)) / datumAlignment * datumAlignment

/-- The `count` low bytes of a word. -/
def leBytes (value : Nat) : Nat → Bytes
  | 0 => []
  | count + 1 => UInt8.ofNat (value % 256) :: leBytes (value / 256) count

def leValue : Bytes → Nat
  | [] => 0
  | byte :: rest => byte.toNat + 256 * leValue rest

/-- `read_u16`, `read_u32` and `read_u64`: `count` bytes at an offset. -/
def readWord (bytes : Bytes) (offset count : Nat) : Option Nat :=
  if offset + count ≤ bytes.length then some (leValue ((bytes.drop offset).take count)) else none

def nullBitmapLen (natts : Nat) : Nat := (natts + 7) / 8

def attrDirOffset (natts : Nat) : Nat := tupleHeaderLen + nullBitmapLen natts

def payloadOffset (natts : Nat) : Nat := alignDatum (attrDirOffset natts + natts * attrEntryLen)

/-- Whether the bytes of an attribute are copied into the payload. -/
def InputAttr.inPayload (attr : InputAttr) : Bool := !attr.isNull && !attr.byval

/-- A by-reference attribute may be the null pointer only when it is empty, and
    its length must not run past the memory it points to. -/
def InputAttr.readable (attr : InputAttr) : Bool :=
  !attr.inPayload || ((attr.value ≠ 0 || attr.valueLen = 0) && attr.valueLen ≤ attr.memory.length)

/-- `tuple_storage_len`; `none` stands for its errors. -/
def tupleStorageLen (input : RowInput) : Option Nat :=
  if input.length < 2 ^ 16 ∧ payloadOffset input.length < 2 ^ 32 ∧
      input.all InputAttr.readable then
    let len := input.foldl
      (fun len attr => if attr.inPayload then alignDatum len + attr.valueLen else len)
      (payloadOffset input.length)
    if len < 2 ^ 32 then some len else none
  else none

/-- One byte of the null bitmap for at most eight attributes. -/
def nullByte : Nat → RowInput → Nat
  | _, [] => 0
  | bit, attr :: rest => (if attr.isNull then 2 ^ bit else 0) + nullByte (bit + 1) rest

def nullBitmap (input : RowInput) : Bytes :=
  (List.range (nullBitmapLen input.length)).map fun i =>
    UInt8.ofNat (nullByte 0 ((input.drop (8 * i)).take 8))

/-- The directory entries and the payload, attribute by attribute. -/
def encodeAttrs : Nat → RowInput → Bytes × Bytes
  | _, [] => ([], [])
  | payloadLen, attr :: rest =>
    if attr.isNull then
      let (entries, payload) := encodeAttrs payloadLen rest
      (List.replicate attrEntryLen 0 ++ entries, payload)
    else if attr.byval then
      let (entries, payload) := encodeAttrs payloadLen rest
      (1 :: List.replicate 7 0 ++ leBytes attr.value 8 ++ List.replicate 8 0 ++ entries, payload)
    else
      let start := alignDatum payloadLen
      let (entries, payload) := encodeAttrs (start + attr.valueLen) rest
      (2 :: List.replicate 7 0 ++ leBytes start 8 ++ leBytes attr.valueLen 8 ++ entries,
        List.replicate (start - payloadLen) 0 ++ attr.memory.take attr.valueLen ++ payload)

/-- `write_tuple_to_slice_known_len` into a buffer of `tuple_storage_len` bytes. -/
def encodeTuple (input : RowInput) : Option Bytes :=
  (tupleStorageLen input).map fun _ =>
    let natts := input.length
    let (entries, payload) := encodeAttrs 0 input
    tupleMagic ++ leBytes natts 2 ++ leBytes (nullBitmapLen natts) 2 ++
      leBytes (attrDirOffset natts) 4 ++ leBytes (payloadOffset natts) 4 ++
      nullBitmap input ++ entries ++
      List.replicate (payloadOffset natts - (attrDirOffset natts + natts * attrEntryLen)) 0 ++ payload

def slice (bytes : Bytes) (start stop : Nat) : Option Bytes :=
  if start ≤ stop ∧ stop ≤ bytes.length then some ((bytes.drop start).take (stop - start)) else none

/-- Whether the bitmap marks attribute `index` as null. -/
def nullAt (tuple : Bytes) (index : Nat) : Bool :=
  match tuple[tupleHeaderLen + index / 8]? with
  | some byte => byte.toNat / 2 ^ (index % 8) % 2 = 1
  | none => false

def decodeAttr (tuple : Bytes) (attrDir payload index : Nat) : Option DecodedDatum := do
  let entry := attrDir + index * attrEntryLen
  let tag ← tuple[entry]?
  if nullAt tuple index ∨ tag = 0 then some .null
  else if tag = 1 then (readWord tuple (entry + 8) 8).map DecodedDatum.byValue
  else if tag = 2 then
    let offset ← readWord tuple (entry + 8) 8
    let len ← readWord tuple (entry + 16) 8
    (slice tuple (payload + offset) (payload + offset + len)).map DecodedDatum.byRef
  else none

/-- `decode_tuple`: the attributes, or `none` for bytes that are no tuple. -/
def decodeTuple (tuple : Bytes) : Option (List DecodedDatum) := do
  if tuple.length < tupleHeaderLen ∨ tuple.take 4 ≠ tupleMagic then none
  else
    let natts ← readWord tuple 4 2
    let bitmapLen ← readWord tuple 6 2
    let attrDir ← readWord tuple 8 4
    let payload ← readWord tuple 12 4
    if attrDir ≠ tupleHeaderLen + bitmapLen then none
    else if payload < attrDir ∨ tuple.length < payload ∨
        payload ≠ alignDatum (attrDir + natts * attrEntryLen) then none
    else (List.range natts).mapM (decodeAttr tuple attrDir payload)

/-- `tuple_byval_attr_equals`: whether attribute `attnum` of a stored tuple is
    the given by-value datum. -/
def tupleByvalAttrEquals (tuple : Bytes) (attnum value : Nat) (isNull : Bool) : Option Bool :=
  if attnum = 0 ∨ tuple.length < tupleHeaderLen ∨ tuple.take 4 ≠ tupleMagic then none
  else do
    let index := attnum - 1
    let natts ← readWord tuple 4 2
    if natts ≤ index then some isNull
    else if tuple.length < payloadOffset natts then none
    else if nullAt tuple index ∨ isNull then some (nullAt tuple index = isNull)
    else
      let entry := attrDirOffset natts + index * attrEntryLen
      if tuple.length < entry + attrEntryLen then none
      else if tuple[entry]? ≠ some 1 then some false
      else some (readWord tuple (entry + 8) 8 = some value)

inductive IndexKeyPart where
  | null
  | byValue (value : Nat)
  | bytes (bytes : Bytes)
  deriving DecidableEq, Repr

inductive IndexKey where
  | single (part : IndexKeyPart)
  | parts (parts : List IndexKeyPart)
  deriving DecidableEq, Repr

structure IndexColumnSpec where
  columnIndex : Nat
  typeOid : Nat
  typbyval : Bool
  typlen : Int
  deriving DecidableEq, Repr

structure UniqueIndexSpec where
  indexOid : Nat
  isPrimary : Bool
  nullsNotDistinct : Bool
  columns : List IndexColumnSpec
  deriving DecidableEq, Repr

def bpcharOid : Nat := 1042

/-- Blank-padded character keys drop their trailing blanks. -/
def canonicalKeyBytes (column : IndexColumnSpec) (bytes : Bytes) : Bytes :=
  if column.typeOid = bpcharOid then (bytes.reverse.dropWhile (· = 0x20)).reverse else bytes

/-- `varlena_payload_range`: where the payload of a variable-length datum
    starts and how long it is. -/
def varlenaPayloadRange (bytes : Bytes) : Option (Nat × Nat) :=
  match bytes with
  | [] => none
  | tag :: _ =>
    if tag.toNat % 2 = 1 then
      if tag = 1 then none else some (1, tag.toNat / 2 - 1)
    else do
      let raw ← readWord bytes 0 4
      if 4 ≤ raw / 4 then some (4, raw / 4 - 4) else none

/-- `byref_key_bytes_from_bytes`: the key bytes of a stored by-reference datum. -/
def byrefKeyBytesFromBytes (typlen : Int) (bytes : Bytes) : Option Bytes :=
  if typlen = -1 then do
    let (offset, len) ← varlenaPayloadRange bytes
    slice bytes offset (offset + len)
  else if 0 < typlen then some (bytes.take typlen.toNat)
  else if typlen = -2 then
    (bytes.findIdx? (· = 0)).map fun index => bytes.take (index + 1)
  else some bytes

/-- `byref_key_bytes`: the key bytes of an incoming by-reference datum. -/
def byrefKeyBytes (typlen : Int) (attr : InputAttr) : Option Bytes :=
  if typlen = -1 then
    if attr.value = 0 then none
    else do
      let (offset, len) ← varlenaPayloadRange attr.memory
      slice attr.memory offset (offset + len)
  else do
    let len ← if 0 < typlen then some typlen.toNat
      else if 0 < attr.valueLen then some attr.valueLen
      else if typlen = -2 then
        if attr.value = 0 then none else (attr.memory.findIdx? (· = 0)).map (· + 1)
      else none
    if len = 0 then some []
    else if attr.value = 0 then none
    else slice attr.memory 0 len

def indexKeyPartForInput (spec : UniqueIndexSpec) (input : RowInput) (column : IndexColumnSpec) :
    Option IndexKeyPart := do
  let attr ← input[column.columnIndex]?
  if attr.isNull then
    if spec.nullsNotDistinct then some .null else none
  else if column.typbyval ∨ attr.byval then some (.byValue attr.value)
  else (byrefKeyBytes column.typlen attr).map fun bytes => .bytes (canonicalKeyBytes column bytes)

def indexKeyPartForDecoded (spec : UniqueIndexSpec) (values : List DecodedDatum)
    (column : IndexColumnSpec) : Option IndexKeyPart := do
  match ← values[column.columnIndex]? with
  | .null => if spec.nullsNotDistinct then some .null else none
  | .byValue value => some (.byValue value)
  | .byRef bytes =>
    if column.typbyval then none
    else (byrefKeyBytesFromBytes column.typlen bytes).map fun bytes =>
      .bytes (canonicalKeyBytes column bytes)

/-- `IndexKey::parts`: one part is kept as a single key. -/
def IndexKey.ofParts : List IndexKeyPart → IndexKey
  | [part] => .single part
  | many => .parts many

def indexKeyForInput (spec : UniqueIndexSpec) (input : RowInput) : Option IndexKey :=
  (spec.columns.mapM (indexKeyPartForInput spec input)).map IndexKey.ofParts

def indexKeyForDecoded (spec : UniqueIndexSpec) (values : List DecodedDatum) : Option IndexKey :=
  (spec.columns.mapM (indexKeyPartForDecoded spec values)).map IndexKey.ofParts

/-- The key of a stored tuple. -/
def indexKeyForTuple (spec : UniqueIndexSpec) (tuple : Bytes) : Option IndexKey :=
  (decodeTuple tuple).bind (indexKeyForDecoded spec)

end FastPg.Storage
