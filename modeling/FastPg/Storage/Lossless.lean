import FastPg.Storage.Edits
import FastPg.Storage.Scan
import Mathlib.Data.Nat.Bitwise

/-! # The tuple codec loses nothing

A row is written into a zeroed buffer of exactly the computed length: header
words, null bits, directory entries and payload go to their offsets one
attribute at a time. The buffer ends up as the concatenation `encodeTuple`
describes, and each of the three readers gets the attributes of the row back.
-/

namespace FastPg.Storage

open List Option

/-! ## Words -/

@[simp] theorem length_leBytes (value count : Nat) : (leBytes value count).length = count := by
  induction count generalizing value with
  | zero => rfl
  | succ count ih => simp [leBytes, ih]

variable {count : Nat}

theorem leValue_leBytes {value : Nat} (small : value < 256 ^ count) :
    leValue (leBytes value count) = value := by
  induction count generalizing value with
  | zero =>
    rw [Nat.pow_zero] at small
    have zero : value = 0 := by omega
    simp [leBytes, leValue, zero]
  | succ count ih =>
    have high : value / 256 < 256 ^ count := by
      rw [Nat.div_lt_iff_lt_mul (by decide)]
      rwa [Nat.pow_succ] at small
    have low : (UInt8.ofNat (value % 256)).toNat = value % 256 := by
      simp
    rw [leBytes, leValue, ih high, low]
    omega

/-- A word that stands in the middle of the bytes. -/
theorem readWord_middle {bytes before word after : Bytes} {offset count : Nat}
    (shape : bytes = before ++ (word ++ after)) (place : before.length = offset)
    (size : word.length = count) : readWord bytes offset count = some (leValue word) := by
  subst shape place size
  simp [readWord]

theorem alignDatum_le (n : Nat) : n ≤ alignDatum n := by
  unfold alignDatum datumAlignment
  omega

/-- The bytes the payload of a row ends at, from a given place on. -/
def payloadEnd (payloadLen : Nat) (input : RowInput) : Nat :=
  input.foldl (fun len attr => if attr.inPayload then alignDatum len + attr.valueLen else len)
    payloadLen

variable (payloadLen : Nat)

theorem payloadEnd_ge (input : RowInput) :
    payloadLen ≤ payloadEnd payloadLen input := by
  induction input generalizing payloadLen with
  | nil => exact le_rfl
  | cons attr rest ih =>
    refine le_trans ?_ (ih _)
    dsimp only
    split
    · exact (alignDatum_le payloadLen).trans (Nat.le_add_right ..)
    · exact le_rfl

theorem payloadEnd_shift (words payloadLen : Nat) (input : RowInput) :
    payloadEnd (datumAlignment * words + payloadLen) input =
      datumAlignment * words + payloadEnd payloadLen input := by
  induction input generalizing payloadLen with
  | nil => rfl
  | cons attr rest ih =>
    have aligned : alignDatum (datumAlignment * words + payloadLen) =
        datumAlignment * words + alignDatum payloadLen := by
      unfold alignDatum datumAlignment
      omega
    by_cases inPayload : attr.inPayload = true
    · have both : ∀ from_, payloadEnd from_ (attr :: rest) =
          payloadEnd (alignDatum from_ + attr.valueLen) rest := by
        intro from_
        simp [payloadEnd, inPayload]
      rw [both, both, aligned, Nat.add_assoc, ih]
    · have both : ∀ from_, payloadEnd from_ (attr :: rest) = payloadEnd from_ rest := by
        intro from_
        simp [payloadEnd, inPayload]
      rw [both, both, ih]

/-! ## Writing into a buffer -/

/-- `copy_from_slice` to a range of the buffer, in bounds or not at all. -/
def writeAt (bytes : Bytes) (offset : Nat) (data : Bytes) : Option Bytes :=
  if offset + data.length ≤ bytes.length then
    some (bytes.take offset ++ (data ++ bytes.drop (offset + data.length)))
  else none

def setNullBit (bytes : Bytes) (index : Nat) : Option Bytes := do
  let byte ← bytes[tupleHeaderLen + index / 8]?
  writeAt bytes (tupleHeaderLen + index / 8) [byte ||| UInt8.ofNat (2 ^ (index % 8))]

/-- One round of the loop over the attributes: the buffer and `payload_len`. -/
def writeAttr (attrDir payload index : Nat) (attr : InputAttr) (state : Bytes × Nat) :
    Option (Bytes × Nat) := do
  let (bytes, payloadLen) := state
  let entry := attrDir + index * attrEntryLen
  if attr.isNull then
    let bytes ← setNullBit bytes index
    let bytes ← writeAt bytes entry [0]
    some (bytes, payloadLen)
  else if attr.byval then
    let bytes ← writeAt bytes entry [1]
    let bytes ← writeAt bytes (entry + 8) (leBytes attr.value 8)
    some (bytes, payloadLen)
  else if !attr.readable then none
  else
    let payloadLen := alignDatum payloadLen
    let bytes ← writeAt bytes (payload + payloadLen) (attr.memory.take attr.valueLen)
    let bytes ← writeAt bytes entry [2]
    let bytes ← writeAt bytes (entry + 8) (leBytes payloadLen 8)
    let bytes ← writeAt bytes (entry + 16) (leBytes attr.valueLen 8)
    some (bytes, payloadLen + attr.valueLen)

def writeAttrs (attrDir payload : Nat) : Nat → RowInput → Bytes × Nat → Option (Bytes × Nat)
  | _, [], state => some state
  | index, attr :: rest, state =>
    (writeAttr attrDir payload index attr state).bind
      (writeAttrs attrDir payload (index + 1) rest)

def writeHeader (natts : Nat) (bytes : Bytes) : Option Bytes := do
  let bytes ← writeAt bytes 0 tupleMagic
  let bytes ← writeAt bytes 4 (leBytes natts 2)
  let bytes ← writeAt bytes 6 (leBytes (nullBitmapLen natts) 2)
  let bytes ← writeAt bytes 8 (leBytes (attrDirOffset natts) 4)
  writeAt bytes 12 (leBytes (payloadOffset natts) 4)

/-- `write_tuple_to_slice_known_len`; `none` stands for its errors and panics. -/
def writeTupleToSliceKnownLen (input : RowInput) (bytes : Bytes) (expectedLen : Nat) :
    Option Bytes := do
  if bytes.length ≠ expectedLen then none
  else
    let natts := input.length
    if 2 ^ 16 ≤ natts ∨ 2 ^ 32 ≤ payloadOffset natts then none
    else
      let bytes ← writeHeader natts (List.replicate bytes.length 0)
      let (bytes, _) ← writeAttrs (attrDirOffset natts) (payloadOffset natts) 0 input (bytes, 0)
      some bytes

variable {offset : Nat}

/-- Data written over as many bytes in the middle of the buffer. -/
theorem writeAt_middle {bytes before old new after : Bytes} {offset : Nat}
    (shape : bytes = before ++ (old ++ after)) (place : before.length = offset)
    (size : old.length = new.length) :
    writeAt bytes offset new = some (before ++ (new ++ after)) := by
  subst shape place
  have inside : before.length + new.length ≤ (before ++ (old ++ after)).length := by
    simp only [length_append]
    omega
  rw [writeAt, if_pos inside, take_left, ← size, ← drop_drop, drop_left,
    drop_left]

theorem writeAt_byte {bytes : Bytes} {byte : UInt8} (inside : offset < bytes.length) :
    writeAt bytes offset [byte] = some (bytes.set offset byte) := by
  rw [writeAt, length_singleton, if_pos (Nat.succ_le_of_lt inside),
    set_eq_take_append_cons_drop, if_pos inside]
  rfl

/-! ## Attribute by attribute -/

/-- The directory entry of an attribute, for the payload written before it. -/
def attrEntry (payloadLen : Nat) (attr : InputAttr) : Bytes :=
  if attr.isNull then List.replicate attrEntryLen 0
  else if attr.byval then
    1 :: List.replicate 7 0 ++ leBytes attr.value 8 ++ List.replicate 8 0
  else 2 :: List.replicate 7 0 ++ leBytes (alignDatum payloadLen) 8 ++ leBytes attr.valueLen 8

/-- The padding and the bytes an attribute adds to the payload. -/
def attrPayload (payloadLen : Nat) (attr : InputAttr) : Bytes :=
  if attr.inPayload then
    List.replicate (alignDatum payloadLen - payloadLen) 0 ++ attr.memory.take attr.valueLen
  else []

variable {attr : InputAttr} {input : RowInput}

@[simp] theorem length_attrEntry (payloadLen : Nat) (attr : InputAttr) :
    (attrEntry payloadLen attr).length = attrEntryLen := by
  unfold attrEntry
  split
  · simp
  · split <;> simp [attrEntryLen]

theorem InputAttr.valueLen_le (readable : attr.readable = true)
    (inPayload : attr.inPayload = true) : attr.valueLen ≤ attr.memory.length := by
  simp only [InputAttr.readable, inPayload, Bool.not_true, Bool.false_or, Bool.and_eq_true,
    decide_eq_true_eq] at readable
  exact readable.2

theorem length_attrPayload (readable : attr.readable = true) (payloadLen : Nat) :
    payloadLen + (attrPayload payloadLen attr).length = payloadEnd payloadLen [attr] := by
  by_cases inPayload : attr.inPayload = true
  · have aligned := alignDatum_le payloadLen
    have inside := InputAttr.valueLen_le readable inPayload
    have after : payloadEnd payloadLen [attr] = alignDatum payloadLen + attr.valueLen := by
      simp [payloadEnd, inPayload]
    rw [after, attrPayload, if_pos inPayload, length_append, length_replicate,
      length_take_of_le inside]
    omega
  · simp [attrPayload, payloadEnd, inPayload]

theorem encodeAttrs_cons (attr : InputAttr) (rest : RowInput) :
    encodeAttrs payloadLen (attr :: rest) =
      (attrEntry payloadLen attr ++ (encodeAttrs (payloadEnd payloadLen [attr]) rest).1,
        attrPayload payloadLen attr ++ (encodeAttrs (payloadEnd payloadLen [attr]) rest).2) := by
  rw [encodeAttrs]
  by_cases null : attr.isNull = true
  · simp [attrEntry, attrPayload, payloadEnd, InputAttr.inPayload, null]
  · by_cases byval : attr.byval = true
    · simp [attrEntry, attrPayload, payloadEnd, InputAttr.inPayload, null, byval]
    · simp [attrEntry, attrPayload, payloadEnd, InputAttr.inPayload, null, byval]

theorem payloadEnd_append (front back : RowInput) :
    payloadEnd payloadLen (front ++ back) = payloadEnd (payloadEnd payloadLen front) back :=
  foldl_append

theorem encodeAttrs_append (front back : RowInput) :
    encodeAttrs payloadLen (front ++ back) =
      ((encodeAttrs payloadLen front).1 ++ (encodeAttrs (payloadEnd payloadLen front) back).1,
        (encodeAttrs payloadLen front).2 ++ (encodeAttrs (payloadEnd payloadLen front) back).2) := by
  induction front generalizing payloadLen with
  | nil => rfl
  | cons attr rest ih =>
    have after : payloadEnd payloadLen (attr :: rest) =
        payloadEnd (payloadEnd payloadLen [attr]) rest := payloadEnd_append payloadLen [attr] rest
    rw [cons_append, encodeAttrs_cons, encodeAttrs_cons, ih, after, append_assoc,
      append_assoc]

theorem length_encodeAttrs_entries (input : RowInput) :
    (encodeAttrs payloadLen input).1.length = input.length * attrEntryLen := by
  induction input generalizing payloadLen with
  | nil => rfl
  | cons attr rest ih =>
    rw [encodeAttrs_cons, length_append, length_attrEntry, ih, length_cons,
      Nat.succ_mul, Nat.add_comm]

theorem length_encodeAttrs_payload
    (readable : ∀ attr ∈ input, attr.readable = true) (payloadLen : Nat) :
    payloadLen + (encodeAttrs payloadLen input).2.length = payloadEnd payloadLen input := by
  induction input generalizing payloadLen with
  | nil => rfl
  | cons attr rest ih =>
    have first := length_attrPayload (readable attr (.head _)) payloadLen
    have later := ih (fun other mem => readable other (.tail _ mem))
      (payloadEnd payloadLen [attr])
    have after : payloadEnd payloadLen (attr :: rest) =
        payloadEnd (payloadEnd payloadLen [attr]) rest := payloadEnd_append payloadLen [attr] rest
    rw [encodeAttrs_cons, length_append, after]
    omega

/-! ## The null bitmap -/

theorem nullByte_succ (bit : Nat) (input : RowInput) :
    nullByte (bit + 1) input = 2 * nullByte bit input := by
  induction input generalizing bit with
  | nil => rfl
  | cons attr rest ih =>
    have power : 2 ^ (bit + 1) = 2 * 2 ^ bit := by rw [Nat.pow_succ, Nat.mul_comm]
    rw [nullByte, nullByte, ih, power]
    split <;> omega

theorem nullByte_lt (input : RowInput) : nullByte 0 input < 2 ^ input.length := by
  induction input with
  | nil => decide
  | cons attr rest ih =>
    rw [nullByte, nullByte_succ, length_cons, Nat.pow_succ]
    split <;> omega

theorem nullByte_concat (input : RowInput) (attr : InputAttr) :
    nullByte 0 (input ++ [attr]) =
      nullByte 0 input + if attr.isNull then 2 ^ input.length else 0 := by
  induction input with
  | nil => simp [nullByte]
  | cons first rest ih =>
    rw [cons_append, nullByte, nullByte, nullByte_succ, nullByte_succ, ih, length_cons,
      Nat.pow_succ]
    split <;> split <;> omega

/-- A bit of a bitmap byte says whether its attribute is null. -/
theorem testBit_nullByte {place : Nat}
    (found : input[place]? = some attr) : (nullByte 0 input).testBit place = attr.isNull := by
  induction input generalizing place with
  | nil => cases found
  | cons first rest ih =>
    rw [nullByte, nullByte_succ]
    cases place with
    | zero =>
      obtain rfl : first = attr := by simpa using found
      cases null : first.isNull <;> simp [Nat.testBit_zero, Nat.add_mod]
    | succ place =>
      rw [getElem?_cons_succ] at found
      have half : ((if first.isNull = true then 2 ^ 0 else 0) + 2 * nullByte 0 rest) / 2 =
          nullByte 0 rest := by
        split <;> omega
      rw [Nat.testBit_succ, half, ih found]

/-- The bitmap bytes while the attributes `done` have been written. -/
def bitmapBytes (count : Nat) (done : RowInput) : Bytes :=
  (List.range count).map fun i => UInt8.ofNat (nullByte 0 ((done.drop (8 * i)).take 8))

@[simp] theorem length_bitmapBytes (count : Nat) (done : RowInput) :
    (bitmapBytes count done).length = count := by
  simp [bitmapBytes]

variable {written : Bytes}

theorem bitmapBytes_nil (count : Nat) : bitmapBytes count [] = replicate count 0 := by
  simp [bitmapBytes, nullByte]

/-- The attributes of one byte, before and after another attribute. -/
theorem chunk_concat (done : RowInput) (attr : InputAttr) (i : Nat) :
    ((done ++ [attr]).drop (8 * i)).take 8 =
      (done.drop (8 * i)).take 8 ++ if i = done.length / 8 then [attr] else [] := by
  by_cases here : i = done.length / 8
  · have start : 8 * i ≤ done.length := by omega
    have short : (done.drop (8 * i) ++ [attr]).length ≤ 8 := by
      simp only [length_append, length_drop, length_singleton]
      omega
    rw [if_pos here, drop_append_of_le_length start, take_of_length_le short,
      take_of_length_le]
    simp only [length_append, length_singleton] at short
    omega
  · rw [if_neg here, append_nil]
    by_cases before : 8 * i + 8 ≤ done.length
    · have enough : 8 ≤ (done.drop (8 * i)).length := by
        rw [length_drop]
        omega
      rw [drop_append_of_le_length (by omega), take_append_of_le_length enough]
    · have past : (done ++ [attr]).length ≤ 8 * i := by
        rw [length_append, length_singleton]
        omega
      have gone : done.length ≤ 8 * i := by
        rw [length_append] at past
        omega
      rw [drop_eq_nil_of_le past, drop_eq_nil_of_le gone]

theorem bitmapBytes_concat_of_not_null (notNull : ¬attr.isNull = true)
    (count : Nat) (done : RowInput) :
    bitmapBytes count (done ++ [attr]) = bitmapBytes count done := by
  refine map_congr_left fun i _ => ?_
  rw [chunk_concat]
  split
  · rw [nullByte_concat, if_neg notNull, Nat.add_zero]
  · rw [append_nil]

/-- The byte that holds the bit of the next attribute. -/
theorem getElem?_bitmapBytes {i : Nat} (room : i < count) (done : RowInput) :
    (bitmapBytes count done)[i]? = some (UInt8.ofNat (nullByte 0 ((done.drop (8 * i)).take 8))) := by
  simp [bitmapBytes, room]

theorem getElem?_bitmap {head after : Bytes} {i : Nat} {done : RowInput}
    (place : head.length = tupleHeaderLen) (room : i < count) :
    (head ++ (bitmapBytes count done ++ after))[tupleHeaderLen + i]? =
      some (UInt8.ofNat (nullByte 0 ((done.drop (8 * i)).take 8))) := by
  rw [← place, getElem?_append_right (Nat.le_add_right ..), Nat.add_sub_cancel_left,
    getElem?_append_left (by simpa using room), getElem?_bitmapBytes room]

theorem nullByte_or_bit (null : attr.isNull = true) (done : RowInput) :
    UInt8.ofNat (nullByte 0 ((done.drop (8 * (done.length / 8))).take 8)) |||
        UInt8.ofNat (2 ^ (done.length % 8)) =
      UInt8.ofNat (nullByte 0 (((done ++ [attr]).drop (8 * (done.length / 8))).take 8)) := by
  have chunkLen : ((done.drop (8 * (done.length / 8))).take 8).length = done.length % 8 := by
    rw [length_take, length_drop]
    omega
  have low := nullByte_lt ((done.drop (8 * (done.length / 8))).take 8)
  rw [chunkLen] at low
  -- the bits below are those of earlier attributes, so the bit is added
  have sum := Nat.two_pow_add_eq_or_of_lt low 1
  rw [Nat.mul_one, Nat.add_comm, Nat.or_comm] at sum
  rw [chunk_concat, if_pos rfl, nullByte_concat, if_pos null, chunkLen, ← UInt8.ofNat_or, sum]

theorem bitmapBytes_concat_of_null (null : attr.isNull = true) {done : RowInput} :
    bitmapBytes count (done ++ [attr]) = (bitmapBytes count done).set (done.length / 8)
      (UInt8.ofNat (nullByte 0 ((done.drop (8 * (done.length / 8))).take 8)) |||
        UInt8.ofNat (2 ^ (done.length % 8))) := by
  refine ext_getElem? fun i => ?_
  rw [getElem?_set, nullByte_or_bit null]
  by_cases room : i < count
  · split
    · rename_i here
      subst here
      rw [getElem?_bitmapBytes room, if_pos (by simpa using room)]
    · rename_i other
      rw [getElem?_bitmapBytes room, getElem?_bitmapBytes room, chunk_concat,
        if_neg (Ne.symm other), append_nil]
  · have past : ∀ flags, (bitmapBytes count flags)[i]? = none := by
      intro flags
      simpa [bitmapBytes] using room
    have short : ∀ byte, (if i < (bitmapBytes count done).length then some byte else none) =
        (none : Option UInt8) := by
      intro byte
      rw [length_bitmapBytes, if_neg room]
    rw [past, past]
    split
    · rename_i here
      rw [here, short]
    · rfl

/-- Setting the bit of the next attribute in a buffer that starts with a header
    and the bitmap. -/
theorem setNullBit_bitmap {head after : Bytes} {done : RowInput} (null : attr.isNull = true)
    (room : done.length / 8 < count) (place : head.length = tupleHeaderLen) :
    setNullBit (head ++ (bitmapBytes count done ++ after)) done.length =
      some (head ++ (bitmapBytes count (done ++ [attr]) ++ after)) := by
  have inBitmap : done.length / 8 < (bitmapBytes count done).length := by simpa using room
  have inside : tupleHeaderLen + done.length / 8 <
      (head ++ (bitmapBytes count done ++ after)).length := by
    simp only [length_append, place]
    omega
  unfold setNullBit
  rw [getElem?_bitmap place room]
  dsimp only [bind_eq_bind, bind_some]
  rw [writeAt_byte inside, bitmapBytes_concat_of_null null, ← place,
    set_append_right _ _ (Nat.le_add_right ..), Nat.add_sub_cancel_left,
    set_append_left _ _ inBitmap]

/-! ## The loop over the attributes -/

/-- A write inside one part of the buffer leaves the other parts alone. -/
theorem writeAt_inside {part : Bytes} {data : Bytes}
    (inner : writeAt part offset data = some written) (front back : Bytes) :
    writeAt (front ++ (part ++ back)) (front.length + offset) data =
      some (front ++ (written ++ back)) := by
  unfold writeAt at inner
  split at inner
  · rename_i inside
    cases inner
    have shape : part = part.take offset ++
        ((part.drop offset).take data.length ++ part.drop (offset + data.length)) := by
      rw [← drop_drop, take_append_drop, take_append_drop]
    rw [@writeAt_middle _ (front ++ part.take offset) ((part.drop offset).take data.length) data
      (part.drop (offset + data.length) ++ back)]
    · simp only [append_assoc]
    · conv_lhs => rw [shape]
      simp only [append_assoc]
    · simp only [length_append, length_take]
      omega
    · simp only [length_take, length_drop]
      omega
  · cases inner

/-- The buffer once the attributes `done` have been written: `room` entries of
    the directory and `free` bytes of the payload are still zero. -/
def buffer (head : Bytes) (count : Nat) (done : RowInput) (room : Nat) (gap : Bytes)
    (free : Nat) : Bytes :=
  head ++ (bitmapBytes count done ++ ((encodeAttrs 0 done).1 ++
    (List.replicate (room * attrEntryLen) 0 ++
      (gap ++ ((encodeAttrs 0 done).2 ++ List.replicate free 0)))))

variable (tag : UInt8)

theorem encodeAttrs_concat (done : RowInput) (attr : InputAttr) :
    encodeAttrs 0 (done ++ [attr]) =
      ((encodeAttrs 0 done).1 ++ attrEntry (payloadEnd 0 done) attr,
        (encodeAttrs 0 done).2 ++ attrPayload (payloadEnd 0 done) attr) := by
  have last : encodeAttrs (payloadEnd 0 done) [attr] =
      (attrEntry (payloadEnd 0 done) attr, attrPayload (payloadEnd 0 done) attr) := by
    rw [encodeAttrs_cons]
    simp [encodeAttrs]
  rw [encodeAttrs_append, last]

/-- A write inside the directory entry behind the entries written so far. -/
theorem writeAt_entry {head bitmap entries part data : Bytes} {place : Nat}
    (inner : writeAt part offset data = some written)
    (here : place = head.length + bitmap.length + entries.length + offset) (back : Bytes) :
    writeAt (head ++ (bitmap ++ (entries ++ (part ++ back)))) place data =
      some (head ++ (bitmap ++ (entries ++ (written ++ back)))) := by
  have moved := writeAt_inside inner (head ++ bitmap ++ entries) back
  rw [here]
  simpa only [append_assoc, length_append, Nat.add_assoc] using moved

theorem writeAt_tag :
    writeAt (replicate attrEntryLen 0) 0 [tag] =
      some (tag :: replicate 7 0 ++ replicate 8 0 ++ replicate 8 0) :=
  rfl

theorem writeAt_first (value : Nat) :
    writeAt (tag :: replicate 7 0 ++ replicate 8 0 ++ replicate 8 0) 8
        (leBytes value 8) =
      some (tag :: replicate 7 0 ++ leBytes value 8 ++ replicate 8 0) := by
  rw [@writeAt_middle _ (tag :: replicate 7 0) (replicate 8 0) _ (replicate 8 0)
    8 (append_assoc ..) (by simp) (by simp), append_assoc]

theorem writeAt_second (value len : Nat) :
    writeAt (tag :: replicate 7 0 ++ leBytes value 8 ++ replicate 8 0) 16
        (leBytes len 8) =
      some (tag :: replicate 7 0 ++ leBytes value 8 ++ leBytes len 8) := by
  rw [@writeAt_middle _ (tag :: replicate 7 0 ++ leBytes value 8) (replicate 8 0) _ []
    _ (by rw [append_nil]) (by simp) (by simp), append_nil]

section Loop

variable {head gap : Bytes} {count attrDir payload room free : Nat} {done : RowInput}
  {attr : InputAttr}

/-- Writing one attribute turns the buffer of the attributes before it into the
    buffer that includes it. -/
theorem writeAttr_buffer (headLen : head.length = tupleHeaderLen)
    (dir : attrDir = tupleHeaderLen + count)
    (start : payload = attrDir + (done.length + (room + 1)) * attrEntryLen + gap.length)
    (bits : done.length / 8 < count) (readable : ∀ other ∈ done ++ [attr], other.readable = true) :
    writeAttr attrDir payload done.length attr
        (buffer head count done (room + 1) gap
          ((attrPayload (payloadEnd 0 done) attr).length + free), payloadEnd 0 done) =
      some (buffer head count (done ++ [attr]) room gap free, payloadEnd 0 (done ++ [attr])) := by
  have first : (room + 1) * attrEntryLen = attrEntryLen + room * attrEntryLen := by
    rw [Nat.succ_mul, Nat.add_comm]
  have place : attrDir + done.length * attrEntryLen =
      head.length + count + (encodeAttrs 0 done).1.length := by
    rw [length_encodeAttrs_entries, headLen, dir]
  have after : payloadEnd 0 (done ++ [attr]) = payloadEnd (payloadEnd 0 done) [attr] :=
    payloadEnd_append ..
  unfold writeAttr buffer
  rw [encodeAttrs_concat, after, first, replicate_add]
  dsimp only
  by_cases null : attr.isNull = true
  · have entry : attrEntry (payloadEnd 0 done) attr = replicate attrEntryLen 0 := by
      simp [attrEntry, null]
    have none_ : attrPayload (payloadEnd 0 done) attr = [] := by
      simp [attrPayload, InputAttr.inPayload, null]
    have same : payloadEnd (payloadEnd 0 done) [attr] = payloadEnd 0 done := by
      simp [payloadEnd, InputAttr.inPayload, null]
    have tag : writeAt (replicate attrEntryLen 0) 0 [0] =
        some (replicate attrEntryLen 0) := rfl
    rw [if_pos null, setNullBit_bitmap null bits headLen]
    dsimp only [bind_eq_bind, bind_some]
    rw [append_assoc,
      writeAt_entry tag (by rw [length_bitmapBytes, place, Nat.add_zero]), entry, none_, same]
    simp
  · rw [if_neg null, bitmapBytes_concat_of_not_null null]
    by_cases byval : attr.byval = true
    · have entry : attrEntry (payloadEnd 0 done) attr =
          1 :: replicate 7 0 ++ leBytes attr.value 8 ++ replicate 8 0 := by
        simp [attrEntry, null, byval]
      have none_ : attrPayload (payloadEnd 0 done) attr = [] := by
        simp [attrPayload, InputAttr.inPayload, byval]
      have same : payloadEnd (payloadEnd 0 done) [attr] = payloadEnd 0 done := by
        simp [payloadEnd, InputAttr.inPayload, byval]
      rw [if_pos byval, append_assoc,
        writeAt_entry (writeAt_tag 1) (by rw [length_bitmapBytes, place, Nat.add_zero])]
      dsimp only [bind_eq_bind, bind_some]
      rw [writeAt_entry (writeAt_first 1 attr.value) (by rw [length_bitmapBytes, place]), entry,
        none_, same]
      simp
    · have inPayload : attr.inPayload = true := by simp [InputAttr.inPayload, null, byval]
      have accepted := readable attr (by simp)
      have inside := InputAttr.valueLen_le accepted inPayload
      have earlier : (encodeAttrs 0 done).2.length = payloadEnd 0 done := by
        have counted := length_encodeAttrs_payload
          (fun other mem => readable other (mem_append_left _ mem)) 0
        omega
      have entry : attrEntry (payloadEnd 0 done) attr = 2 :: replicate 7 0 ++
          leBytes (alignDatum (payloadEnd 0 done)) 8 ++ leBytes attr.valueLen 8 := by
        simp [attrEntry, null, byval]
      have later : payloadEnd (payloadEnd 0 done) [attr] =
          alignDatum (payloadEnd 0 done) + attr.valueLen := by
        simp [payloadEnd, inPayload]
      have aligned := alignDatum_le (payloadEnd 0 done)
      have grown : attrPayload (payloadEnd 0 done) attr =
          replicate (alignDatum (payloadEnd 0 done) - payloadEnd 0 done) 0 ++
            attr.memory.take attr.valueLen := by
        rw [attrPayload, if_pos inPayload]
      have total : (attrPayload (payloadEnd 0 done) attr).length + free =
          (alignDatum (payloadEnd 0 done) - payloadEnd 0 done) + (attr.valueLen + free) := by
        rw [grown, length_append, length_replicate, length_take_of_le inside,
          Nat.add_assoc]
      have copied := @writeAt_middle _
        (head ++ bitmapBytes count done ++ (encodeAttrs 0 done).1 ++
          replicate attrEntryLen 0 ++ replicate (room * attrEntryLen) 0 ++ gap ++
          (encodeAttrs 0 done).2 ++
          replicate (alignDatum (payloadEnd 0 done) - payloadEnd 0 done) 0)
        (replicate attr.valueLen 0) (attr.memory.take attr.valueLen) (replicate free 0)
        (payload + alignDatum (payloadEnd 0 done)) rfl
        (by
          simp only [length_append, length_replicate, length_bitmapBytes, earlier]
          rw [Nat.add_mul, first] at start
          omega)
        (by simp [inside])
      simp only [append_assoc] at copied
      rw [if_neg byval, accepted, total, replicate_add, replicate_add,
        append_assoc, copied]
      dsimp only [bind_eq_bind, bind_some, Bool.not_true]
      rw [if_neg (by decide),
        writeAt_entry (writeAt_tag 2) (by rw [length_bitmapBytes, place, Nat.add_zero])]
      dsimp only [bind_some]
      rw [writeAt_entry (writeAt_first 2 _) (by rw [length_bitmapBytes, place])]
      dsimp only [bind_some]
      rw [writeAt_entry (writeAt_second 2 _ _) (by rw [length_bitmapBytes, place])]
      rw [entry, grown, later]
      simp

/-- The whole loop, from any number of attributes already written. -/
theorem writeAttrs_buffer (headLen : head.length = tupleHeaderLen)
    (dir : attrDir = tupleHeaderLen + count) {rest : RowInput}
    (start : payload = attrDir + (done.length + rest.length) * attrEntryLen + gap.length)
    (bits : done.length + rest.length ≤ 8 * count)
    (readable : ∀ attr ∈ done ++ rest, attr.readable = true) :
    writeAttrs attrDir payload done.length rest
        (buffer head count done rest.length gap
          (encodeAttrs (payloadEnd 0 done) rest).2.length, payloadEnd 0 done) =
      some (buffer head count (done ++ rest) 0 gap 0, payloadEnd 0 (done ++ rest)) := by
  induction rest generalizing done with
  | nil => simp [writeAttrs, encodeAttrs]
  | cons attr rest ih =>
    rw [length_cons] at start bits
    have regroup : done ++ attr :: rest = (done ++ [attr]) ++ rest := by simp
    have step := @writeAttr_buffer head gap count attrDir payload rest.length
      (encodeAttrs (payloadEnd 0 (done ++ [attr])) rest).2.length done attr headLen dir start
      (by omega) (fun other mem => readable other (by
        rw [regroup]
        exact mem_append_left _ mem))
    have payloadLen : (encodeAttrs (payloadEnd 0 done) (attr :: rest)).2.length =
        (attrPayload (payloadEnd 0 done) attr).length +
          (encodeAttrs (payloadEnd 0 (done ++ [attr])) rest).2.length := by
      rw [encodeAttrs_cons, length_append, payloadEnd_append]
    have moved : done.length + (rest.length + 1) = (done ++ [attr]).length + rest.length := by
      rw [length_append, length_singleton]
      omega
    have next := @ih (done ++ [attr]) (by rwa [← moved]) (by rwa [← moved]) (by rwa [← regroup])
    rw [length_append, length_singleton] at next
    rw [writeAttrs, length_cons, payloadLen, step, bind_some, next, regroup]

end Loop

/-! ## Whole tuples -/

variable {len : Nat} (natts : Nat)

theorem le_mul_nullBitmapLen : natts ≤ 8 * nullBitmapLen natts := by
  unfold nullBitmapLen
  omega

/-- What `tuple_storage_len` accepts and the length it answers. -/
theorem tupleStorageLen_eq_some (stored : tupleStorageLen input = some len) :
    input.length < 2 ^ 16 ∧ payloadOffset input.length < 2 ^ 32 ∧
      (∀ attr ∈ input, attr.readable = true) ∧
      len = payloadOffset input.length + payloadEnd 0 input ∧ len < 2 ^ 32 := by
  unfold tupleStorageLen at stored
  split at stored
  · rename_i accepted
    obtain ⟨narrow, low, readable⟩ := accepted
    have words : payloadOffset input.length = datumAlignment *
        ((attrDirOffset input.length + input.length * attrEntryLen + (datumAlignment - 1)) /
          datumAlignment) + 0 := by
      unfold payloadOffset alignDatum
      rw [Nat.add_zero, Nat.mul_comm]
    have total : payloadEnd (payloadOffset input.length) input =
        payloadOffset input.length + payloadEnd 0 input := by
      rw [words, payloadEnd_shift]
      rfl
    change (if payloadEnd (payloadOffset input.length) input < 2 ^ 32 then
      some (payloadEnd (payloadOffset input.length) input) else none) = some len at stored
    split at stored
    · rename_i short
      cases stored
      exact ⟨narrow, low, all_eq_true.mp readable, total, short⟩
    · cases stored
  · cases stored

/-- The header words of a row. -/
def tupleHead (natts : Nat) : Bytes :=
  tupleMagic ++ leBytes natts 2 ++ leBytes (nullBitmapLen natts) 2 ++
    leBytes (attrDirOffset natts) 4 ++ leBytes (payloadOffset natts) 4

theorem length_tupleHead : (tupleHead natts).length = tupleHeaderLen := by
  simp [tupleHead, tupleMagic, tupleHeaderLen]

/-- The padding between the directory and the payload. -/
def payloadGap (natts : Nat) : Bytes :=
  List.replicate (payloadOffset natts - (attrDirOffset natts + natts * attrEntryLen)) 0

theorem length_payloadGap :
    attrDirOffset natts + natts * attrEntryLen + (payloadGap natts).length =
      payloadOffset natts := by
  have fits := alignDatum_le (attrDirOffset natts + natts * attrEntryLen)
  rw [payloadGap, length_replicate]
  unfold payloadOffset
  omega

/-- The stored bytes of a row. -/
def tupleBytes (input : RowInput) : Bytes :=
  buffer (tupleHead input.length) (nullBitmapLen input.length) input 0 (payloadGap input.length) 0

theorem encodeTuple_eq_tupleBytes (stored : tupleStorageLen input = some len) :
    encodeTuple input = some (tupleBytes input) := by
  rw [encodeTuple, stored, map_some]
  simp [tupleBytes, buffer, tupleHead, payloadGap, nullBitmap, bitmapBytes]

/-- Data written where the zeros of a buffer begin. -/
theorem writeAt_zeros {front data : Bytes} {offset size free : Nat} (place : front.length = offset)
    (length : data.length = size) :
    writeAt (front ++ replicate (size + free) 0) offset data =
      some ((front ++ data) ++ replicate free 0) := by
  rw [replicate_add, writeAt_middle rfl place (by rw [length_replicate, length]),
    append_assoc]

theorem writeHeader_zeros (natts free : Nat) :
    writeHeader natts (replicate (tupleHeaderLen + free) 0) =
      some (tupleHead natts ++ replicate free 0) := by
  have sizes : tupleHeaderLen + free = 4 + (2 + (2 + (4 + (4 + free)))) := by
    unfold tupleHeaderLen
    omega
  have magic := @writeAt_zeros [] tupleMagic 0 4 (2 + (2 + (4 + (4 + free)))) rfl rfl
  rw [nil_append, nil_append] at magic
  unfold writeHeader
  rw [sizes, magic]
  dsimp only [bind_eq_bind, bind_some]
  rw [writeAt_zeros (by simp [tupleMagic]) (length_leBytes ..), bind_some,
    writeAt_zeros (by simp [tupleMagic]) (length_leBytes ..), bind_some,
    writeAt_zeros (by simp [tupleMagic]) (length_leBytes ..), bind_some,
    writeAt_zeros (by simp [tupleMagic]) (length_leBytes ..)]
  rfl

/-- The writer fills the buffer with the bytes of the tuple, whatever it held. -/
theorem writeTupleToSliceKnownLen_eq_encodeTuple (stored : tupleStorageLen input = some len)
    {bytes : Bytes} (sized : bytes.length = len) :
    writeTupleToSliceKnownLen input bytes len = encodeTuple input := by
  obtain ⟨narrow, low, readable, total, -⟩ := tupleStorageLen_eq_some stored
  have gap := length_payloadGap input.length
  have payload := length_encodeAttrs_payload readable 0
  have dir : attrDirOffset input.length = tupleHeaderLen + nullBitmapLen input.length := rfl
  -- the zeroed buffer is that of no attribute written
  have zeroed : replicate bytes.length 0 = replicate (tupleHeaderLen +
      (nullBitmapLen input.length + (input.length * attrEntryLen +
        ((payloadGap input.length).length + (encodeAttrs 0 input).2.length)))) (0 : UInt8) := by
    rw [sized, total]
    congr 1
    omega
  have begun : tupleHead input.length ++ replicate
      (nullBitmapLen input.length + (input.length * attrEntryLen +
        ((payloadGap input.length).length + (encodeAttrs 0 input).2.length))) 0 =
      buffer (tupleHead input.length) (nullBitmapLen input.length) [] input.length
        (payloadGap input.length) (encodeAttrs (payloadEnd 0 []) input).2.length := by
    rw [buffer, bitmapBytes_nil, replicate_add, replicate_add, replicate_add]
    simp [encodeAttrs, payloadGap, payloadEnd]
  have loop := @writeAttrs_buffer (tupleHead input.length) (payloadGap input.length)
    (nullBitmapLen input.length) (attrDirOffset input.length) (payloadOffset input.length) []
    (length_tupleHead _) dir input (by simp [gap]) (by simpa using le_mul_nullBitmapLen _) readable
  rw [encodeTuple_eq_tupleBytes stored]
  unfold writeTupleToSliceKnownLen
  rw [if_neg (not_not_intro sized)]
  dsimp only
  rw [if_neg (by omega), zeroed, writeHeader_zeros, begun]
  have entered : (writeAttrs (attrDirOffset input.length) (payloadOffset input.length) 0 input
      (buffer (tupleHead input.length) (nullBitmapLen input.length) [] input.length
        (payloadGap input.length) (encodeAttrs (payloadEnd 0 []) input).2.length, 0)) = _ := loop
  dsimp only [bind_eq_bind, bind_some]
  rw [entered]
  rfl

/-! ## Reading the tuple back -/

/-- What a row holds at an attribute. -/
def InputAttr.datum (attr : InputAttr) : DecodedDatum :=
  if attr.isNull then .null
  else if attr.byval then .byValue attr.value
  else .byRef (attr.memory.take attr.valueLen)

/-- What the readers find of it: eight bytes of a value. -/
def InputAttr.stored (attr : InputAttr) : DecodedDatum :=
  if attr.isNull then .null
  else if attr.byval then .byValue (leValue (leBytes attr.value 8))
  else .byRef (attr.memory.take attr.valueLen)

theorem map_stored (words : ∀ attr ∈ input, attr.value < 2 ^ 64) :
    input.map InputAttr.stored = input.map InputAttr.datum :=
  map_congr_left fun attr mem => by
    rw [InputAttr.stored, leValue_leBytes (by norm_num; exact words attr mem)]
    rfl

theorem slice_middle {bytes before part after : Bytes} {start stop : Nat}
    (shape : bytes = before ++ (part ++ after)) (begins : before.length = start)
    (ends : start + part.length = stop) : slice bytes start stop = some part := by
  subst shape begins ends
  simp [slice]

theorem length_tupleBytes (readable : ∀ attr ∈ input, attr.readable = true) :
    (tupleBytes input).length = payloadOffset input.length + payloadEnd 0 input := by
  have gap := length_payloadGap input.length
  have payload := length_encodeAttrs_payload readable 0
  have dir : attrDirOffset input.length = tupleHeaderLen + nullBitmapLen input.length := rfl
  simp only [tupleBytes, buffer, length_append, length_tupleHead, length_bitmapBytes,
    length_encodeAttrs_entries, length_replicate]
  omega

theorem nullAt_tupleBytes {index : Nat}
    (found : input[index]? = some attr) : nullAt (tupleBytes input) index = attr.isNull := by
  have inRow : index < input.length := (List.getElem?_eq_some_iff.mp found).1
  have room : index / 8 < nullBitmapLen input.length := by
    unfold nullBitmapLen
    omega
  have byte : (tupleBytes input)[tupleHeaderLen + index / 8]? =
      some (UInt8.ofNat (nullByte 0 ((input.drop (8 * (index / 8))).take 8))) :=
    getElem?_bitmap (length_tupleHead _) room
  have inChunk : ((input.drop (8 * (index / 8))).take 8)[index % 8]? = some attr := by
    rw [getElem?_take_of_lt (Nat.mod_lt _ (by decide)), getElem?_drop, Nat.div_add_mod,
      found]
  have small : nullByte 0 ((input.drop (8 * (index / 8))).take 8) < 2 ^ 8 :=
    (nullByte_lt _).trans_le (Nat.pow_le_pow_right (by decide) (length_take_le ..))
  unfold nullAt
  rw [byte]
  dsimp only
  rw [UInt8.toNat_ofNat', Nat.mod_eq_of_lt small, ← Nat.testBit_eq_decide_div_mod_eq,
    testBit_nullByte inChunk]

/-- The bytes around the entry of an attribute. -/
theorem tupleBytes_entry (front back : RowInput) (attr : InputAttr) :
    ∃ before after, tupleBytes (front ++ attr :: back) =
        before ++ (attrEntry (payloadEnd 0 front) attr ++ after) ∧
      before.length = attrDirOffset (front ++ attr :: back).length + front.length * attrEntryLen := by
  refine ⟨tupleHead (front ++ attr :: back).length ++
      bitmapBytes (nullBitmapLen (front ++ attr :: back).length) (front ++ attr :: back) ++
        (encodeAttrs 0 front).1,
    (encodeAttrs (payloadEnd (payloadEnd 0 front) [attr]) back).1 ++
      (payloadGap (front ++ attr :: back).length ++ (encodeAttrs 0 (front ++ attr :: back)).2),
    ?_, ?_⟩
  · rw [tupleBytes, buffer, encodeAttrs_append, encodeAttrs_cons]
    simp
  · simp only [length_append, length_tupleHead, length_bitmapBytes,
      length_encodeAttrs_entries, attrDirOffset]

/-- The bytes around the data of a by-reference attribute. -/
theorem tupleBytes_data {front : RowInput}
    (readable : ∀ other ∈ front, other.readable = true) (inPayload : attr.inPayload = true)
    (back : RowInput) :
    ∃ before after, tupleBytes (front ++ attr :: back) =
        before ++ (attr.memory.take attr.valueLen ++ after) ∧
      before.length =
        payloadOffset (front ++ attr :: back).length + alignDatum (payloadEnd 0 front) := by
  refine ⟨tupleHead (front ++ attr :: back).length ++
      bitmapBytes (nullBitmapLen (front ++ attr :: back).length) (front ++ attr :: back) ++
        (encodeAttrs 0 (front ++ attr :: back)).1 ++ payloadGap (front ++ attr :: back).length ++
          (encodeAttrs 0 front).2 ++
            replicate (alignDatum (payloadEnd 0 front) - payloadEnd 0 front) 0,
    (encodeAttrs (payloadEnd (payloadEnd 0 front) [attr]) back).2, ?_, ?_⟩
  · rw [tupleBytes, buffer, encodeAttrs_append, encodeAttrs_cons, attrPayload, if_pos inPayload]
    simp
  · have earlier := length_encodeAttrs_payload readable 0
    have aligned := alignDatum_le (payloadEnd 0 front)
    have gap := length_payloadGap (front ++ attr :: back).length
    have dir : attrDirOffset (front ++ attr :: back).length =
        tupleHeaderLen + nullBitmapLen (front ++ attr :: back).length := rfl
    simp only [length_append, length_tupleHead, length_bitmapBytes,
      length_encodeAttrs_entries, length_replicate] at gap dir ⊢
    omega

/-- What a by-reference attribute needs of the payload before it. -/
theorem payloadEnd_front_le (front back : RowInput) (attr : InputAttr)
    (inPayload : attr.inPayload = true) :
    alignDatum (payloadEnd 0 front) + attr.valueLen ≤ payloadEnd 0 (front ++ attr :: back) := by
  have after : payloadEnd (payloadEnd 0 front) [attr] =
      alignDatum (payloadEnd 0 front) + attr.valueLen := by
    simp [payloadEnd, inPayload]
  have regroup : payloadEnd 0 (front ++ attr :: back) =
      payloadEnd (payloadEnd (payloadEnd 0 front) [attr]) back := by
    rw [payloadEnd_append]
    exact payloadEnd_append _ [attr] back
  rw [regroup, after]
  exact payloadEnd_ge ..

theorem getElem?_split {index : Nat} (found : input[index]? = some attr) :
    ∃ front back, input = front ++ attr :: back ∧ front.length = index := by
  obtain ⟨bound, rfl⟩ := List.getElem?_eq_some_iff.mp found
  refine ⟨input.take index, input.drop (index + 1), ?_, List.length_take_of_le bound.le⟩
  rw [← List.drop_eq_getElem_cons bound, List.take_append_drop]

section Reading

variable {input : RowInput} {index : Nat} {attr : InputAttr}

/-- The tag an attribute gets in the directory. -/
def attrTag (attr : InputAttr) : UInt8 := if attr.isNull then 0 else if attr.byval then 1 else 2

theorem tag_tupleBytes (found : input[index]? = some attr) :
    (tupleBytes input)[attrDirOffset input.length + index * attrEntryLen]? =
      some (attrTag attr) := by
  obtain ⟨front, back, rfl, rfl⟩ := getElem?_split found
  obtain ⟨before, after, shape, place⟩ := tupleBytes_entry front back attr
  have first : (attrEntry (payloadEnd 0 front) attr)[0]? = some (attrTag attr) := by
    unfold attrEntry attrTag
    split
    · simp [attrEntryLen]
    · split <;> rfl
  have some_ : 0 < (attrEntry (payloadEnd 0 front) attr).length := by
    rw [length_attrEntry]
    decide
  rw [shape, getElem?_append_right place.le, place, Nat.sub_self,
    getElem?_append_left some_, first]

theorem word_tupleBytes (found : input[index]? = some attr) (notNull : ¬attr.isNull = true)
    (byval : attr.byval = true) :
    readWord (tupleBytes input) (attrDirOffset input.length + index * attrEntryLen + 8) 8 =
      some (leValue (leBytes attr.value 8)) := by
  obtain ⟨front, back, rfl, rfl⟩ := getElem?_split found
  obtain ⟨before, after, shape, place⟩ := tupleBytes_entry front back attr
  have entry : attrEntry (payloadEnd 0 front) attr =
      1 :: replicate 7 0 ++ leBytes attr.value 8 ++ replicate 8 0 := by
    simp [attrEntry, notNull, byval]
  rw [entry] at shape
  exact @readWord_middle _ (before ++ 1 :: replicate 7 0) (leBytes attr.value 8)
    (replicate 8 0 ++ after) _ 8 (by simp [shape]) (by simp [place]) (length_leBytes ..)

/-- The two words of a by-reference entry lead to the data. -/
theorem data_tupleBytes (readable : ∀ attr ∈ input, attr.readable = true)
    (short : payloadEnd 0 input < 2 ^ 32) (found : input[index]? = some attr)
    (inPayload : attr.inPayload = true) :
    ∃ start,
      readWord (tupleBytes input) (attrDirOffset input.length + index * attrEntryLen + 8) 8 =
        some start ∧
      readWord (tupleBytes input) (attrDirOffset input.length + index * attrEntryLen + 16) 8 =
        some attr.valueLen ∧
      slice (tupleBytes input) (payloadOffset input.length + start)
        (payloadOffset input.length + start + attr.valueLen) =
          some (attr.memory.take attr.valueLen) := by
  have inside := InputAttr.valueLen_le (readable attr (mem_of_getElem? found)) inPayload
  obtain ⟨front, back, rfl, rfl⟩ := getElem?_split found
  obtain ⟨before, after, shape, place⟩ := tupleBytes_entry front back attr
  have bound := payloadEnd_front_le front back attr inPayload
  have entry : attrEntry (payloadEnd 0 front) attr = 2 :: replicate 7 0 ++
      leBytes (alignDatum (payloadEnd 0 front)) 8 ++ leBytes attr.valueLen 8 := by
    simp only [InputAttr.inPayload, Bool.and_eq_true, Bool.not_eq_true'] at inPayload
    simp [attrEntry, inPayload]
  rw [entry] at shape
  refine ⟨alignDatum (payloadEnd 0 front), ?_, ?_, ?_⟩
  · rw [@readWord_middle _ (before ++ 2 :: replicate 7 0)
      (leBytes (alignDatum (payloadEnd 0 front)) 8) (leBytes attr.valueLen 8 ++ after) _ 8
      (by simp [shape]) (by simp [place]) (length_leBytes ..),
      leValue_leBytes (by norm_num; omega)]
  · rw [@readWord_middle _
      (before ++ 2 :: replicate 7 0 ++ leBytes (alignDatum (payloadEnd 0 front)) 8)
      (leBytes attr.valueLen 8) after _ 8 (by simp [shape]) (by simp [place]) (length_leBytes ..),
      leValue_leBytes (by norm_num; omega)]
  · obtain ⟨before, after, shape, place⟩ := tupleBytes_data
      (fun other mem => readable other (mem_append_left _ mem)) inPayload back
    exact slice_middle shape place (by rw [length_take_of_le inside])

theorem decodeAttr_tupleBytes (readable : ∀ attr ∈ input, attr.readable = true)
    (short : payloadEnd 0 input < 2 ^ 32) (found : input[index]? = some attr) :
    decodeAttr (tupleBytes input) (attrDirOffset input.length) (payloadOffset input.length) index =
      some attr.stored := by
  unfold decodeAttr
  dsimp only
  rw [tag_tupleBytes found, nullAt_tupleBytes found]
  by_cases null : attr.isNull = true
  · simp [null, InputAttr.stored]
  · by_cases byval : attr.byval = true
    · simp [null, byval, InputAttr.stored, attrTag, word_tupleBytes found null byval]
    · have inPayload : attr.inPayload = true := by simp [InputAttr.inPayload, null, byval]
      obtain ⟨start, first, second, data⟩ := data_tupleBytes readable short found inPayload
      simp [null, byval, InputAttr.stored, attrTag, first, second, data]

end Reading

/-- Reading as many attributes as the row has, or fewer. -/
theorem mapM_decodeAttr (readable : ∀ attr ∈ input, attr.readable = true)
    (short : payloadEnd 0 input < 2 ^ 32) (bound : count ≤ input.length) :
    (List.range count).mapM
        (decodeAttr (tupleBytes input) (attrDirOffset input.length) (payloadOffset input.length)) =
      some ((input.take count).map InputAttr.stored) := by
  induction count with
  | zero => rfl
  | succ count ih =>
    have found : input[count]? = some (input.get ⟨count, bound⟩) := by simp
    rw [List.range_succ, List.mapM_append, ih (by omega), List.take_add_one, found]
    simp only [List.mapM_cons, List.mapM_nil, decodeAttr_tupleBytes readable short found,
      Option.pure_def, Option.bind_eq_bind, Option.bind_some, Option.toList_some, List.map_append,
      List.map_cons, List.map_nil]

/-- The header words as the readers find them. -/
theorem header_tupleBytes (narrow : input.length < 2 ^ 16)
    (low : payloadOffset input.length < 2 ^ 32) :
    (tupleBytes input).take 4 = tupleMagic ∧
      readWord (tupleBytes input) 4 2 = some input.length ∧
      readWord (tupleBytes input) 6 2 = some (nullBitmapLen input.length) ∧
      readWord (tupleBytes input) 8 4 = some (attrDirOffset input.length) ∧
      readWord (tupleBytes input) 12 4 = some (payloadOffset input.length) := by
  have bitmap : nullBitmapLen input.length < 2 ^ 16 := by
    unfold nullBitmapLen
    omega
  have dir : attrDirOffset input.length < 2 ^ 32 := by
    unfold attrDirOffset tupleHeaderLen
    omega
  have opened : ∃ after, tupleBytes input = tupleMagic ++ (leBytes input.length 2 ++
      (leBytes (nullBitmapLen input.length) 2 ++ (leBytes (attrDirOffset input.length) 4 ++
        (leBytes (payloadOffset input.length) 4 ++ after)))) := by
    unfold tupleBytes buffer tupleHead
    simp only [append_assoc]
    exact ⟨_, rfl⟩
  obtain ⟨after, shape⟩ := opened
  refine ⟨?_, ?_, ?_, ?_, ?_⟩
  · rw [shape]
    rfl
  · rw [@readWord_middle _ _ _ _ 4 2 shape rfl (length_leBytes ..),
      leValue_leBytes (by norm_num; exact narrow)]
  · rw [@readWord_middle _ (tupleMagic ++ leBytes input.length 2)
      (leBytes (nullBitmapLen input.length) 2) _ _ _ (by rw [shape, append_assoc])
      (by simp [tupleMagic]) (length_leBytes ..), leValue_leBytes (by norm_num; exact bitmap)]
  · rw [@readWord_middle _
      (tupleMagic ++ leBytes input.length 2 ++ leBytes (nullBitmapLen input.length) 2)
      (leBytes (attrDirOffset input.length) 4) _ _ _
      (by rw [shape, append_assoc, append_assoc]) (by simp [tupleMagic])
      (length_leBytes ..), leValue_leBytes (by norm_num; exact dir)]
  · rw [@readWord_middle _
      (tupleMagic ++ leBytes input.length 2 ++ leBytes (nullBitmapLen input.length) 2 ++
        leBytes (attrDirOffset input.length) 4)
      (leBytes (payloadOffset input.length) 4) _ _ _
      (by rw [shape, append_assoc, append_assoc, append_assoc]) (by simp [tupleMagic])
      (length_leBytes ..), leValue_leBytes (by norm_num; exact low)]

/-- Whether a datum is the given by-value one. -/
def DecodedDatum.isByval (datum : DecodedDatum) (value : Nat) (isNull : Bool) : Bool :=
  match datum with
  | .null => isNull
  | .byValue stored => !isNull && decide (stored = value)
  | .byRef _ => false

section Rows

variable {input : RowInput} {len : Nat}

theorem tupleHeaderLen_le_payloadOffset (natts : Nat) : tupleHeaderLen ≤ payloadOffset natts := by
  have fits := alignDatum_le (attrDirOffset natts + natts * attrEntryLen)
  unfold payloadOffset attrDirOffset at *
  omega

/-- What the readers check first. -/
theorem tupleBytes_opened (stored : tupleStorageLen input = some len) :
    ¬((tupleBytes input).length < tupleHeaderLen ∨ (tupleBytes input).take 4 ≠ tupleMagic) ∧
      readWord (tupleBytes input) 4 2 = some input.length ∧
      payloadOffset input.length ≤ (tupleBytes input).length ∧ payloadEnd 0 input < 2 ^ 32 := by
  obtain ⟨narrow, low, readable, total, short⟩ := tupleStorageLen_eq_some stored
  obtain ⟨magic, count, -⟩ := header_tupleBytes narrow low
  have length := length_tupleBytes readable
  have header := tupleHeaderLen_le_payloadOffset input.length
  exact ⟨not_or.mpr ⟨by omega, not_not_intro magic⟩, count, by omega, by omega⟩

theorem decodeTuple_tupleBytes (stored : tupleStorageLen input = some len)
    (words : ∀ attr ∈ input, attr.value < 2 ^ 64) :
    decodeTuple (tupleBytes input) = some (input.map InputAttr.datum) := by
  obtain ⟨opened, -, length, short⟩ := tupleBytes_opened stored
  obtain ⟨narrow, low, readable, -⟩ := tupleStorageLen_eq_some stored
  obtain ⟨magic, natts, bitmap, dir, payload⟩ := header_tupleBytes narrow low
  have gap := length_payloadGap input.length
  have all := mapM_decodeAttr readable short le_rfl
  rw [take_length, map_stored words] at all
  unfold decodeTuple
  rw [if_neg opened]
  simp only [natts, bitmap, dir, payload, bind_eq_bind, bind_some]
  have start : attrDirOffset input.length = tupleHeaderLen + nullBitmapLen input.length := rfl
  rw [if_neg (not_not_intro start), if_neg, all]
  rw [not_or, not_or, not_not]
  exact ⟨by omega, by omega, rfl⟩

theorem copyTupleToOutputs_tupleBytes (stored : tupleStorageLen input = some len) (natts : Nat) :
    copyTupleToOutputs (tupleBytes input) natts =
      some (input.length, (input.map InputAttr.stored).take natts ++
        replicate (natts - input.length) .null) := by
  obtain ⟨opened, count, length, short⟩ := tupleBytes_opened stored
  obtain ⟨-, -, readable, -⟩ := tupleStorageLen_eq_some stored
  have some_ := mapM_decodeAttr readable short (min_le_left input.length natts)
  have first : (input.take (min input.length natts)).map InputAttr.stored =
      (input.map InputAttr.stored).take natts := by
    rw [map_take, min_comm, ← length_map InputAttr.stored, ← take_eq_take_min]
  have rest : natts - min input.length natts = natts - input.length := by omega
  unfold copyTupleToOutputs
  rw [if_neg opened]
  simp only [count, bind_eq_bind, bind_some]
  rw [if_neg (by omega), some_, bind_some, first, rest]

theorem tupleByvalAttrEquals_tupleBytes (stored : tupleStorageLen input = some len)
    (words : ∀ attr ∈ input, attr.value < 2 ^ 64) {attnum : Nat} (one : 0 < attnum) (value : Nat)
    (isNull : Bool) :
    tupleByvalAttrEquals (tupleBytes input) attnum value isNull =
      some ((((input.map InputAttr.datum)[attnum - 1]?).getD .null).isByval value isNull) := by
  obtain ⟨opened, count, length, -⟩ := tupleBytes_opened stored
  unfold tupleByvalAttrEquals
  rw [if_neg (not_or.mpr ⟨one.ne', opened⟩)]
  simp only [count, bind_eq_bind, bind_some]
  by_cases missing : input.length ≤ attnum - 1
  · have past : (input.map InputAttr.datum)[attnum - 1]? = none := by simpa using missing
    rw [if_pos missing, past]
    rfl
  · obtain ⟨attr, found⟩ : ∃ attr, input[attnum - 1]? = some attr :=
      ⟨_, getElem?_eq_getElem (not_le.mp missing)⟩
    have datum : (input.map InputAttr.datum)[attnum - 1]? = some attr.datum := by
      rw [getElem?_map, found, map_some]
    rw [if_neg missing, if_neg (by omega), nullAt_tupleBytes found, datum, getD_some]
    by_cases null : attr.isNull = true
    · cases isNull <;> simp [null, InputAttr.datum, DecodedDatum.isByval]
    · by_cases asked : isNull = true
      · simp only [null, asked, or_true, if_true, InputAttr.datum]
        cases attr.byval <;> rfl
      · have gap := length_payloadGap input.length
        have inside : attrDirOffset input.length + (attnum - 1) * attrEntryLen + attrEntryLen ≤
            (tupleBytes input).length := by
          unfold attrEntryLen at *
          omega
        rw [if_neg (by simp [null, asked]), if_neg (not_lt.mpr inside), tag_tupleBytes found]
        by_cases byval : attr.byval = true
        · have word := word_tupleBytes found null byval
          rw [leValue_leBytes (by norm_num; exact words attr (mem_of_getElem? found))] at word
          simp [attrTag, InputAttr.datum, DecodedDatum.isByval, null, byval, asked, word]
        · simp [attrTag, InputAttr.datum, DecodedDatum.isByval, null, byval]

/-- Every written tuple can be copied to the outputs of a scan. -/
theorem Encoded.copied {tuple : Bytes} (encoded : Encoded tuple) (natts : Nat) :
    (copyTupleToOutputs tuple natts).isSome := by
  obtain ⟨input, h⟩ := encoded
  obtain ⟨len, stored, -⟩ := map_eq_some_iff.mp h
  rw [encodeTuple_eq_tupleBytes stored, some.injEq] at h
  rw [← h, copyTupleToOutputs_tupleBytes stored]
  rfl

/-- A row that gets a length is written to exactly that many bytes, and each
    reader gives its attributes back: all of them, the first `natts` padded with
    nulls, or whether one of them is a given by-value datum. -/
theorem writeTupleToSliceKnownLen_lossless (words : ∀ attr ∈ input, attr.value < 2 ^ 64)
    (stored : tupleStorageLen input = some len) {bytes : Bytes} (sized : bytes.length = len) :
    ∃ tuple, writeTupleToSliceKnownLen input bytes len = some tuple ∧
      tuple.length = len ∧
      decodeTuple tuple = some (input.map InputAttr.datum) ∧
      (∀ natts, copyTupleToOutputs tuple natts =
        some (input.length, (input.map InputAttr.datum).take natts ++
          List.replicate (natts - input.length) .null)) ∧
      ∀ attnum, 0 < attnum → ∀ value isNull, tupleByvalAttrEquals tuple attnum value isNull =
        some ((((input.map InputAttr.datum)[attnum - 1]?).getD .null).isByval value isNull) := by
  obtain ⟨-, -, readable, total, -⟩ := tupleStorageLen_eq_some stored
  refine ⟨tupleBytes input, ?_, ?_, decodeTuple_tupleBytes stored words,
    map_stored words ▸ copyTupleToOutputs_tupleBytes stored, fun attnum one =>
      tupleByvalAttrEquals_tupleBytes stored words one⟩
  · rw [writeTupleToSliceKnownLen_eq_encodeTuple stored sized, encodeTuple_eq_tupleBytes stored]
  · rw [length_tupleBytes readable, total]

/-- A row with a null, a number and a three-byte value. -/
theorem writeTupleToSliceKnownLen_lossless_three :
    ∃ tuple, writeTupleToSliceKnownLen
        [⟨true, false, 0, [], 0⟩, ⟨false, true, 7, [], 8⟩, ⟨false, false, 64, [1, 2, 3], 3⟩]
        (List.replicate 99 9) 99 = some tuple ∧
      decodeTuple tuple = some [.null, .byValue 7, .byRef [1, 2, 3]] := by
  obtain ⟨tuple, written, -, decoded, -⟩ := @writeTupleToSliceKnownLen_lossless
    [⟨true, false, 0, [], 0⟩, ⟨false, true, 7, [], 8⟩, ⟨false, false, 64, [1, 2, 3], 3⟩] 99
    (by decide) (by decide) (List.replicate 99 9) (by decide)
  exact ⟨tuple, written, decoded⟩

end Rows

end FastPg.Storage
