import FastPg.Storage.Lossless

/-! # One key for every form of a row

The key of an index is read from three places: the incoming row, whose
by-reference words point to memory; the bytes of the stored tuple; and datums
handed over as keys, which carry no length. When the flags and lengths of a row
are those of its types, all three give the same key, and the key does not show
which header a variable-length value had.
-/

namespace FastPg.Storage

open List Option

/-! ## Key datums -/

/-- A datum handed over as a key: a word and the memory it points to if it is a
    reference. -/
structure KeyDatum where
  isNull : Bool
  value : Nat
  memory : Bytes
  deriving DecidableEq, Repr

/-- A reference without a length: `byref_len` ignores a fallback of zero as it
    ignores a missing one. -/
def KeyDatum.pointer (datum : KeyDatum) : InputAttr := ⟨false, false, datum.value, datum.memory, 0⟩

def indexKeyPartForKeyDatum (spec : UniqueIndexSpec) (column : IndexColumnSpec)
    (datum : KeyDatum) : Option IndexKeyPart :=
  if datum.isNull then
    if spec.nullsNotDistinct then some .null else none
  else if column.typbyval then some (.byValue datum.value)
  else (byrefKeyBytes column.typlen datum.pointer).map fun bytes =>
    .bytes (canonicalKeyBytes column bytes)

def indexKeyForKeyDatums (spec : UniqueIndexSpec) (datums : List KeyDatum) : Option IndexKey :=
  if datums.length ≠ spec.columns.length then none
  else ((spec.columns.zip datums).mapM fun keyed =>
    indexKeyPartForKeyDatum spec keyed.1 keyed.2).map IndexKey.ofParts

def InputAttr.keyDatum (attr : InputAttr) : KeyDatum := ⟨attr.isNull, attr.value, attr.memory⟩

/-- The key datums of a row: its attributes at the columns of the index. -/
def projectKeyDatums (spec : UniqueIndexSpec) (input : RowInput) : Option (List KeyDatum) :=
  spec.columns.mapM fun column => (input[column.columnIndex]?).map InputAttr.keyDatum

/-! ## Lengths that match their type -/

/-- The size of a variable-length datum: of a pointer to a value kept elsewhere,
    of a value with a one-byte header, or of one with a four-byte header. -/
def varsizeAny (memory : Bytes) : Option Nat :=
  match memory with
  | [] => none
  | tag :: rest =>
    if tag.toNat % 2 = 1 then
      if tag = 1 then rest.head?.map fun vartag => 2 + if vartag = 18 then 16 else 8
      else some (tag.toNat / 2)
    else (readWord memory 0 4).map (· / 4)

/-- `fastpg_mem_datum_size` of a by-reference datum. -/
def datumSize (typlen : Int) (memory : Bytes) : Option Nat :=
  if 0 < typlen then some typlen.toNat
  else if typlen = -1 then varsizeAny memory
  else if typlen = -2 then (memory.findIdx? (· = 0)).map (· + 1)
  else none

/-- The by-value flag and the length of an attribute are those of the type of
    the column. -/
def InputAttr.fits (attr : InputAttr) (column : IndexColumnSpec) : Bool :=
  attr.isNull || (attr.byval == column.typbyval &&
    (attr.byval || decide (datumSize column.typlen attr.memory = some attr.valueLen)))

/-! ## Reading a value where it ends -/

variable {len : Nat}

theorem slice_take {bytes : Bytes} {start stop : Nat} (inside : len ≤ bytes.length)
    (bound : stop ≤ len) : slice (bytes.take len) start stop = slice bytes start stop := by
  unfold slice
  rw [length_take_of_le inside]
  by_cases order : start ≤ stop
  · rw [if_pos ⟨order, bound⟩, if_pos ⟨order, bound.trans inside⟩, drop_take, take_take,
      min_eq_left (by omega)]
  · rw [if_neg (fun both => order both.1), if_neg (fun both => order both.1)]

theorem readWord_take {bytes : Bytes} {offset count : Nat} (inside : len ≤ bytes.length)
    (bound : offset + count ≤ len) :
    readWord (bytes.take len) offset count = readWord bytes offset count := by
  unfold readWord
  rw [length_take_of_le inside, if_pos bound, if_pos (bound.trans inside), drop_take,
    take_take, min_eq_left (by omega)]

/-! ## The headers of variable-length values -/

theorem varlenaPayloadRange_pointer (rest : Bytes) : varlenaPayloadRange (1 :: rest) = none := rfl

theorem varlenaPayloadRange_short {tag : UInt8} (odd : tag.toNat % 2 = 1) (inline : tag ≠ 1)
    (rest : Bytes) : varlenaPayloadRange (tag :: rest) = some (1, tag.toNat / 2 - 1) := by
  simp [varlenaPayloadRange, odd, inline]

theorem varlenaPayloadRange_long {tag : UInt8} (even : ¬tag.toNat % 2 = 1) (rest : Bytes) :
    varlenaPayloadRange (tag :: rest) = (readWord (tag :: rest) 0 4).bind fun raw =>
      if 4 ≤ raw / 4 then some (4, raw / 4 - 4) else none := by
  simp only [varlenaPayloadRange, even, if_false]
  rfl

/-- The key bytes of a variable-length value, as either reader finds them. -/
def varlenaKeyBytes (bytes : Bytes) : Option Bytes :=
  (varlenaPayloadRange bytes).bind fun range => slice bytes range.1 (range.1 + range.2)

/-- Nothing behind the end of a variable-length value is read. -/
theorem varlenaKeyBytes_take {memory : Bytes} (size : varsizeAny memory = some len)
    (inside : len ≤ memory.length) :
    varlenaKeyBytes (memory.take len) = varlenaKeyBytes memory := by
  cases memory with
  | nil => cases size
  | cons tag rest =>
    have opened : ∀ more, (tag :: rest).take (more + 1) = tag :: rest.take more :=
      fun _ => rfl
    unfold varsizeAny at size
    dsimp only at size
    by_cases odd : tag.toNat % 2 = 1
    · rw [if_pos odd] at size
      by_cases pointer : tag = 1
      · rw [if_pos pointer] at size
        obtain ⟨vartag, -, rfl⟩ := map_eq_some_iff.mp size
        subst pointer
        rw [Nat.add_comm 2]
        unfold varlenaKeyBytes
        rw [opened, varlenaPayloadRange_pointer, varlenaPayloadRange_pointer, bind_none,
          bind_none]
      · rw [if_neg pointer, some.injEq] at size
        obtain ⟨more, rfl⟩ : ∃ more, len = more + 1 := Nat.exists_eq_succ_of_ne_zero (by
          intro zero
          have one : tag.toNat = 1 := by omega
          exact pointer (UInt8.toNat_inj.mp one))
        unfold varlenaKeyBytes
        rw [opened, varlenaPayloadRange_short odd pointer, varlenaPayloadRange_short odd pointer,
          bind_some, bind_some, ← opened, slice_take inside]
        dsimp only
        omega
    · rw [if_neg odd] at size
      obtain ⟨raw, word, rfl⟩ := map_eq_some_iff.mp size
      unfold varlenaKeyBytes
      rw [varlenaPayloadRange_long odd, word, bind_some]
      by_cases enough : 4 ≤ raw / 4
      · obtain ⟨more, split⟩ : ∃ more, raw / 4 = more + 1 := ⟨raw / 4 - 1, by omega⟩
        have kept : readWord (tag :: rest.take more) 0 4 = some raw := by
          rw [← opened, ← split, readWord_take inside (by omega), word]
        rw [if_pos enough, bind_some, split, opened, varlenaPayloadRange_long odd, kept,
          bind_some, if_pos enough, bind_some, ← opened, ← split,
          slice_take inside (by dsimp only; omega)]
      · rw [if_neg enough, bind_none]
        rcases Nat.eq_zero_or_pos (raw / 4) with zero | positive
        · rw [zero]
          rfl
        · obtain ⟨more, split⟩ : ∃ more, raw / 4 = more + 1 := ⟨raw / 4 - 1, by omega⟩
          have missing : readWord (tag :: rest.take more) 0 4 = none := by
            rw [← opened, readWord, length_take_of_le (by omega), if_neg (by omega)]
          rw [split, opened, varlenaPayloadRange_long odd, missing]
          rfl

theorem byrefKeyBytes_varlena (attr : InputAttr) (pointer : attr.value ≠ 0) :
    byrefKeyBytes (-1) attr = varlenaKeyBytes attr.memory := by
  simp only [byrefKeyBytes, if_true, if_neg pointer]
  rfl

theorem byrefKeyBytesFromBytes_varlena (bytes : Bytes) :
    byrefKeyBytesFromBytes (-1) bytes = varlenaKeyBytes bytes := rfl

/-! ## The three readers -/

section Readers

variable {attr : InputAttr} {typlen : Int}

theorem InputAttr.value_ne_zero (readable : attr.readable = true)
    (inPayload : attr.inPayload = true) (some_ : 0 < attr.valueLen) : attr.value ≠ 0 := by
  simp only [InputAttr.readable, inPayload, Bool.not_true, Bool.false_or, Bool.and_eq_true,
    Bool.or_eq_true, decide_eq_true_eq] at readable
  omega

/-- A value of a fixed length, or a C string with its length. -/
theorem byrefKeyBytes_of_len (notVarlena : typlen ≠ -1) (pointer : attr.value ≠ 0)
    (positive : 0 < len)
    (known : len = if 0 < typlen then typlen.toNat else attr.valueLen) :
    byrefKeyBytes typlen attr = slice attr.memory 0 len := by
  unfold byrefKeyBytes
  rw [if_neg notVarlena]
  by_cases fixed : 0 < typlen
  · rw [if_pos fixed] at known ⊢
    dsimp only [bind_eq_bind, bind_some]
    rw [← known, if_neg positive.ne', if_neg pointer]
  · rw [if_neg fixed] at known ⊢
    rw [if_pos (known ▸ positive)]
    dsimp only [bind_eq_bind, bind_some]
    rw [← known, if_neg positive.ne', if_neg pointer]

/-- A C string without a length is read up to its terminating zero. -/
theorem byrefKeyBytes_terminated {index : Nat} (pointer : attr.value ≠ 0)
    (unknown : attr.valueLen = 0)
    (found : attr.memory.findIdx? (fun byte => decide (byte = 0)) = some index) :
    byrefKeyBytes (-2) attr = slice attr.memory 0 (index + 1) := by
  simp [byrefKeyBytes, unknown, pointer, found]

theorem slice_zero {bytes : Bytes} (inside : len ≤ bytes.length) :
    slice bytes 0 len = some (bytes.take len) := by
  simp [slice, inside]

/-- The stored bytes give the key bytes that the pointer gave. -/
theorem byrefKeyBytesFromBytes_eq (readable : attr.readable = true)
    (inPayload : attr.inPayload = true) (size : datumSize typlen attr.memory = some attr.valueLen) :
    byrefKeyBytesFromBytes typlen (attr.memory.take attr.valueLen) = byrefKeyBytes typlen attr := by
  have inside := InputAttr.valueLen_le readable inPayload
  have pointer := InputAttr.value_ne_zero readable inPayload
  unfold datumSize at size
  by_cases fixed : 0 < typlen
  · rw [if_pos fixed, some.injEq] at size
    have positive : 0 < attr.valueLen := by omega
    have other : typlen ≠ -1 := by omega
    rw [byrefKeyBytes_of_len other (pointer positive) positive (by rw [if_pos fixed, size]),
      slice_zero inside, byrefKeyBytesFromBytes, if_neg other, if_pos fixed, size, take_take,
      min_self]
  · rw [if_neg fixed] at size
    by_cases varlena : typlen = -1
    · rw [if_pos varlena] at size
      subst varlena
      rw [byrefKeyBytesFromBytes_varlena]
      by_cases null : attr.value = 0
      · have empty : attr.valueLen = 0 := by
          by_contra some_
          exact pointer (Nat.pos_of_ne_zero some_) null
        simp [byrefKeyBytes, null, empty, varlenaKeyBytes, varlenaPayloadRange]
      · rw [byrefKeyBytes_varlena attr null, varlenaKeyBytes_take size inside]
    · rw [if_neg varlena] at size
      by_cases cstring : typlen = -2
      · rw [if_pos cstring] at size
        obtain ⟨index, found, ends⟩ := map_eq_some_iff.mp size
        have positive : 0 < attr.valueLen := by omega
        rw [byrefKeyBytes_of_len varlena (pointer positive) positive (by rw [if_neg fixed]),
          slice_zero inside, byrefKeyBytesFromBytes, if_neg varlena, if_neg fixed, if_pos cstring,
          ← ends, List.findIdx?_take, found, Option.bind_some, Option.guard, if_pos (by simp),
          map_some, take_take, min_self]
      · rw [if_neg cstring] at size
        cases size

/-- A key datum is read like the attribute it was projected from. -/
theorem byrefKeyBytes_keyDatum (readable : attr.readable = true)
    (inPayload : attr.inPayload = true) (size : datumSize typlen attr.memory = some attr.valueLen) :
    byrefKeyBytes typlen attr.keyDatum.pointer = byrefKeyBytes typlen attr := by
  have inside := InputAttr.valueLen_le readable inPayload
  have pointer := InputAttr.value_ne_zero readable inPayload
  unfold datumSize at size
  by_cases fixed : 0 < typlen
  · rw [if_pos fixed, some.injEq] at size
    have positive : 0 < attr.valueLen := by omega
    have other : typlen ≠ -1 := by omega
    rw [byrefKeyBytes_of_len other (pointer positive) positive (by rw [if_pos fixed, size])]
    exact byrefKeyBytes_of_len other (pointer positive) positive (by rw [if_pos fixed, size])
  · rw [if_neg fixed] at size
    by_cases varlena : typlen = -1
    · subst varlena
      rfl
    · rw [if_neg varlena] at size
      by_cases cstring : typlen = -2
      · rw [if_pos cstring] at size
        obtain ⟨index, found, ends⟩ := map_eq_some_iff.mp size
        have positive : 0 < attr.valueLen := by omega
        subst cstring
        rw [byrefKeyBytes_of_len varlena (pointer positive) positive (by rw [if_neg fixed]), ← ends]
        exact byrefKeyBytes_terminated (pointer positive) rfl found
      · rw [if_neg cstring] at size
        cases size

end Readers

/-! ## Whole keys -/

variable {column : IndexColumnSpec}

theorem InputAttr.fits.flag {attr : InputAttr} (fits : attr.fits column = true)
    (notNull : ¬attr.isNull = true) :
    attr.byval = column.typbyval ∧
      (¬attr.byval = true → datumSize column.typlen attr.memory = some attr.valueLen) := by
  simp only [InputAttr.fits, notNull, Bool.false_or, Bool.and_eq_true, beq_iff_eq, Bool.or_eq_true,
    decide_eq_true_eq] at fits
  exact ⟨fits.1, fun byref => fits.2.resolve_left byref⟩

section Parts

variable {spec : UniqueIndexSpec} {column : IndexColumnSpec} {input : RowInput}
  (readable : ∀ attr ∈ input, attr.readable = true)
  (fits : ∀ attr, input[column.columnIndex]? = some attr → attr.fits column = true)

include readable fits

theorem indexKeyPartForDecoded_map_datum :
    indexKeyPartForDecoded spec (input.map InputAttr.datum) column =
      indexKeyPartForInput spec input column := by
  unfold indexKeyPartForDecoded indexKeyPartForInput
  rw [getElem?_map]
  cases found : input[column.columnIndex]? with
  | none => rfl
  | some attr =>
    dsimp only [map_some, bind_eq_bind, bind_some]
    by_cases null : attr.isNull = true
    · simp [InputAttr.datum, null]
    · obtain ⟨flag, size⟩ := InputAttr.fits.flag (fits attr found) null
      by_cases byval : attr.byval = true
      · simp [InputAttr.datum, null, byval]
      · have inPayload : attr.inPayload = true := by simp [InputAttr.inPayload, null, byval]
        have typbyref : ¬column.typbyval = true := by rwa [← flag]
        have same := byrefKeyBytesFromBytes_eq (readable attr (mem_of_getElem? found))
          inPayload (size byval)
        simp [InputAttr.datum, null, byval, typbyref, same]

theorem indexKeyPartForKeyDatum_projected :
    ((input[column.columnIndex]?).map InputAttr.keyDatum).bind
        (indexKeyPartForKeyDatum spec column) = indexKeyPartForInput spec input column := by
  unfold indexKeyPartForKeyDatum indexKeyPartForInput
  cases found : input[column.columnIndex]? with
  | none => rfl
  | some attr =>
    dsimp only [map_some, bind_eq_bind, bind_some]
    by_cases null : attr.isNull = true
    · simp [InputAttr.keyDatum, null]
    · obtain ⟨flag, size⟩ := InputAttr.fits.flag (fits attr found) null
      by_cases byval : attr.byval = true
      · have typbyval : column.typbyval = true := by rwa [← flag]
        simp [InputAttr.keyDatum, null, byval, typbyval]
      · have inPayload : attr.inPayload = true := by simp [InputAttr.inPayload, null, byval]
        have typbyref : ¬column.typbyval = true := by rwa [← flag]
        have same := byrefKeyBytes_keyDatum (readable attr (mem_of_getElem? found))
          inPayload (size byval)
        simp [InputAttr.keyDatum, null, byval, typbyref, ← same]

end Parts

section MapM

variable {α β γ : Type}

theorem mapM_congr {f g : α → Option β} {items : List α} (same : ∀ item ∈ items, f item = g item) :
    items.mapM f = items.mapM g := by
  induction items with
  | nil => rfl
  | cons item rest ih =>
    rw [mapM_cons, mapM_cons, same item (mem_cons_self ..),
      ih fun other mem => same other (.tail _ mem)]

/-- Projecting every item first and reading the pairs then is reading each item
    right after its projection. -/
theorem mapM_zip_projected {project : α → Option β} {read : α → β → Option γ} {items : List α} :
    ((items.mapM project).bind fun values =>
        if values.length ≠ items.length then none
        else (items.zip values).mapM fun pair => read pair.1 pair.2) =
      items.mapM fun item => (project item).bind (read item) := by
  induction items with
  | nil => rfl
  | cons item rest ih =>
    rw [mapM_cons, mapM_cons, ← ih]
    cases project item with
    | none => rfl
    | some value =>
      cases rest.mapM project with
      | none => simp
      | some values =>
        by_cases length : values.length = rest.length
        · simp [mapM_cons, length]
        · simp [length]

end MapM

/-- Every item of the row at the columns of an index is right for its column. -/
def RowFits (spec : UniqueIndexSpec) (input : RowInput) : Prop :=
  ∀ column ∈ spec.columns, ∀ attr, input[column.columnIndex]? = some attr →
    attr.fits column = true

variable {spec : UniqueIndexSpec} {input : RowInput}

theorem indexKeyForDecoded_map_datum (readable : ∀ attr ∈ input, attr.readable = true)
    (fits : RowFits spec input) :
    indexKeyForDecoded spec (input.map InputAttr.datum) = indexKeyForInput spec input := by
  unfold indexKeyForDecoded indexKeyForInput
  rw [mapM_congr fun column mem =>
    indexKeyPartForDecoded_map_datum readable (fits column mem)]

theorem indexKeyForKeyDatums_projected (readable : ∀ attr ∈ input, attr.readable = true)
    (fits : RowFits spec input) :
    (projectKeyDatums spec input).bind (indexKeyForKeyDatums spec) = indexKeyForInput spec input := by
  have parts := mapM_congr fun column mem =>
    @indexKeyPartForKeyDatum_projected spec column input readable (fits column mem)
  unfold projectKeyDatums indexKeyForKeyDatums indexKeyForInput
  rw [← parts, ← mapM_zip_projected]
  cases spec.columns.mapM fun column => (input[column.columnIndex]?).map InputAttr.keyDatum with
  | none => rfl
  | some datums =>
    rw [bind_some, bind_some]
    split <;> rfl

/-! ## Header forms -/

/-- A value with a one-byte header. -/
def shortVarlena (payload : Bytes) : Bytes := UInt8.ofNat (2 * (payload.length + 1) + 1) :: payload

/-- A value with a four-byte header. -/
def longVarlena (payload : Bytes) : Bytes := leBytes (4 * (payload.length + 4)) 4 ++ payload

/-- A non-null attribute that points to a variable-length value with the given
    payload, with either header. A one-byte header has room for 126 bytes and a
    four-byte header for a gigabyte. -/
def InputAttr.HoldsVarlena (attr : InputAttr) (payload : Bytes) : Prop :=
  attr.isNull = false ∧ attr.byval = false ∧ attr.value ≠ 0 ∧
    (payload.length ≤ 126 ∧ shortVarlena payload <+: attr.memory ∨
      payload.length + 4 < 2 ^ 30 ∧ longVarlena payload <+: attr.memory)

variable {payload : Bytes}

theorem varlenaKeyBytes_short (short : payload.length ≤ 126) (after : Bytes) :
    varlenaKeyBytes (shortVarlena payload ++ after) = some payload := by
  have tag : (UInt8.ofNat (2 * (payload.length + 1) + 1)).toNat = 2 * (payload.length + 1) + 1 := by
    rw [UInt8.toNat_ofNat', Nat.mod_eq_of_lt (by omega)]
  have inline : UInt8.ofNat (2 * (payload.length + 1) + 1) ≠ 1 := by
    intro one
    rw [one] at tag
    have small : (1 : UInt8).toNat = 1 := rfl
    omega
  unfold varlenaKeyBytes shortVarlena
  rw [cons_append, varlenaPayloadRange_short (by omega) inline, bind_some, tag]
  exact @slice_middle _ [UInt8.ofNat (2 * (payload.length + 1) + 1)] payload after _ _ rfl rfl
    (by dsimp only; omega)

theorem varlenaKeyBytes_long (fits : payload.length + 4 < 2 ^ 30) (after : Bytes) :
    varlenaKeyBytes (longVarlena payload ++ after) = some payload := by
  have word : readWord (longVarlena payload ++ after) 0 4 = some (4 * (payload.length + 4)) := by
    rw [@readWord_middle _ [] (leBytes (4 * (payload.length + 4)) 4) (payload ++ after) 0 4
      (by simp [longVarlena]) rfl (length_leBytes ..), leValue_leBytes (by norm_num; omega)]
  have opened : longVarlena payload ++ after =
      UInt8.ofNat (4 * (payload.length + 4) % 256) ::
        (leBytes (4 * (payload.length + 4) / 256) 3 ++ payload ++ after) := rfl
  have even : ¬(UInt8.ofNat (4 * (payload.length + 4) % 256)).toNat % 2 = 1 := by
    rw [UInt8.toNat_ofNat', Nat.mod_eq_of_lt (Nat.mod_lt _ (by decide))]
    omega
  have range : varlenaPayloadRange (longVarlena payload ++ after) = some (4, payload.length) := by
    rw [opened, varlenaPayloadRange_long even, ← opened, word, bind_some,
      if_pos (by omega)]
    congr 2
    omega
  unfold varlenaKeyBytes
  rw [range, bind_some]
  exact @slice_middle _ (leBytes (4 * (payload.length + 4)) 4) payload after _ _
    (by simp [longVarlena]) (length_leBytes ..) rfl

theorem InputAttr.HoldsVarlena.keyBytes {attr : InputAttr} (holds : attr.HoldsVarlena payload) :
    byrefKeyBytes (-1) attr = some payload := by
  obtain ⟨-, -, pointer, ⟨short, after, shape⟩ | ⟨small, after, shape⟩⟩ := holds
  · rw [byrefKeyBytes_varlena attr pointer, ← shape, varlenaKeyBytes_short short]
  · rw [byrefKeyBytes_varlena attr pointer, ← shape, varlenaKeyBytes_long small]

/-- Two rows have the same attribute at a column, or the column is of a
    variable-length type and the values differ only in their header. -/
def SameButHeader (column : IndexColumnSpec) (input other : RowInput) : Prop :=
  input[column.columnIndex]? = other[column.columnIndex]? ∨
    column.typbyval = false ∧ column.typlen = -1 ∧
      ∃ attr, input[column.columnIndex]? = some attr ∧
        ∃ otherAttr, other[column.columnIndex]? = some otherAttr ∧
          ∃ payload, attr.HoldsVarlena payload ∧ otherAttr.HoldsVarlena payload

theorem SameButHeader.part {other : RowInput} (same : SameButHeader column input other) :
    indexKeyPartForInput spec other column = indexKeyPartForInput spec input column := by
  unfold indexKeyPartForInput
  rcases same with equal | ⟨byref, varlena, attr, found, otherAttr, otherFound, payload, holds, held⟩
  · rw [equal]
  · have bytes := holds.keyBytes
    have otherBytes := held.keyBytes
    obtain ⟨notNull, notByval, -⟩ := holds
    obtain ⟨otherNotNull, otherNotByval, -⟩ := held
    simp [found, otherFound, byref, varlena, notNull, notByval, otherNotNull, otherNotByval, bytes,
      otherBytes]

/-- The incoming row, its stored tuple and its key datums have one key or none,
    and rows that differ only in headers have the same one. -/
theorem indexKey_representations {spec : UniqueIndexSpec} {input : RowInput} {tuple : Bytes}
    (words : ∀ attr ∈ input, attr.value < 2 ^ 64) (encoded : encodeTuple input = some tuple)
    (fits : RowFits spec input) :
    indexKeyForTuple spec tuple = indexKeyForInput spec input ∧
      (projectKeyDatums spec input).bind (indexKeyForKeyDatums spec) =
        indexKeyForInput spec input ∧
      ∀ other, (∀ column ∈ spec.columns, SameButHeader column input other) →
        indexKeyForInput spec other = indexKeyForInput spec input := by
  obtain ⟨len, stored⟩ : ∃ len, tupleStorageLen input = some len := by
    obtain ⟨len, stored, -⟩ := Option.map_eq_some_iff.mp encoded
    exact ⟨len, stored⟩
  obtain ⟨-, -, readable, -⟩ := tupleStorageLen_eq_some stored
  have written : tupleBytes input = tuple := by
    rw [encodeTuple_eq_tupleBytes stored] at encoded
    exact Option.some.inj encoded
  refine ⟨?_, indexKeyForKeyDatums_projected readable fits, ?_⟩
  · rw [indexKeyForTuple, ← written, decodeTuple_tupleBytes stored words, Option.bind_some,
      indexKeyForDecoded_map_datum readable fits]
  · intro other same
    unfold indexKeyForInput
    rw [mapM_congr fun column member => (same column member).part]

/-- An index on a text column and a number. -/
def textAndNumber : UniqueIndexSpec :=
  ⟨9, false, false, [⟨0, 25, false, -1⟩, ⟨1, 23, true, 4⟩]⟩

/-- A row whose text of two bytes has a one-byte header and the same row with a
    four-byte header have one key. -/
theorem indexKey_representations_text :
    indexKeyForInput textAndNumber
        [⟨false, false, 64, longVarlena [97, 98], 6⟩, ⟨false, true, 5, [], 0⟩] =
      indexKeyForInput textAndNumber
        [⟨false, false, 64, shortVarlena [97, 98], 3⟩, ⟨false, true, 5, [], 0⟩] := by
  obtain ⟨tuple, encoded⟩ := Option.isSome_iff_exists.mp (show (encodeTuple
    [⟨false, false, 64, shortVarlena [97, 98], 3⟩, ⟨false, true, 5, [], 0⟩]).isSome by decide)
  refine (indexKey_representations (by decide) encoded ?_).2.2 _ ?_
  · intro column member attr found
    simp only [textAndNumber, List.mem_cons, List.not_mem_nil, or_false] at member
    rcases member with rfl | rfl
    · obtain rfl := Option.some.inj found
      decide
    · obtain rfl := Option.some.inj found
      decide
  · intro column member
    simp only [textAndNumber, List.mem_cons, List.not_mem_nil, or_false] at member
    rcases member with rfl | rfl
    · exact .inr ⟨rfl, rfl, _, rfl, _, rfl, [97, 98],
        ⟨rfl, rfl, by decide, .inl ⟨by decide, List.prefix_rfl⟩⟩,
        ⟨rfl, rfl, by decide, .inr ⟨by decide, List.prefix_rfl⟩⟩⟩
    · exact .inl rfl

end FastPg.Storage
