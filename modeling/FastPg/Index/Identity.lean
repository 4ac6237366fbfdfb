import FastPg.Index.Conflict

/-! # When keys stand for values

A column type has an equality operator; the index compares key parts. The unique
check and the probe decide the equality of a type for all rows exactly if the
key parts do: two values are equal if and only if they have the same key part.
Floats, whose two zeros are equal, and numerics, whose trailing zeros do not
count, are types where this fails.
-/

namespace FastPg.Storage

open Assoc Redirect Transition Option RelationStorage Overlays
open List hiding insert lookup

/-- The equality operator of the type of a column, on stored values. -/
abbrev Equality := IndexColumnSpec → DecodedDatum → DecodedDatum → Bool

/-- The key part of a stored value that is not null. -/
def keyPartOf (column : IndexColumnSpec) : DecodedDatum → Option IndexKeyPart
  | .null => none
  | .byValue value => some (.byValue value)
  | .byRef bytes =>
    if column.typbyval then none
    else (byrefKeyBytesFromBytes column.typlen bytes).map fun bytes =>
      .bytes (canonicalKeyBytes column bytes)

/-- A row with the given value in a column and nulls before it. -/
def rowAt (column : IndexColumnSpec) (attr : InputAttr) : RowInput :=
  List.replicate column.columnIndex ⟨true, false, 0, [], 0⟩ ++ [attr]

/-- A value of the type of a column that a row can hold there. -/
structure InputAttr.IsValue (column : IndexColumnSpec) (attr : InputAttr) : Prop where
  notNull : attr.isNull = false
  fits : attr.fits column = true
  word : attr.value < 2 ^ 64
  stored : (tupleStorageLen (rowAt column attr)).isSome

/-- Two values of the type are equal exactly if they have the same key part. -/
def Canonical (eq : Equality) (column : IndexColumnSpec) : Prop :=
  ∀ v w : InputAttr, v.IsValue column → w.IsValue column →
    (eq column v.datum w.datum = true ↔
      ∃ part, keyPartOf column v.datum = some part ∧ keyPartOf column w.datum = some part)

/-- A row's value in a column is equal to a candidate value. -/
def EqualAt (eq : Equality) (spec : UniqueIndexSpec) (values : List DecodedDatum)
    (column : IndexColumnSpec) (candidate : InputAttr) : Prop :=
  ∃ datum, values[column.columnIndex]? = some datum ∧
    if candidate.isNull then spec.nullsNotDistinct = true ∧ datum = .null
    else datum ≠ .null ∧ eq column datum candidate.datum = true

/-- A row has a key that is equal to the candidate under the operators of the types. -/
def EqualKey (eq : Equality) (spec : UniqueIndexSpec) (values : List DecodedDatum)
    (candidates : List InputAttr) : Prop :=
  List.Forall₂ (EqualAt eq spec values) spec.columns candidates

/-- Candidates for the columns of an index: nulls or values of the types. -/
def Candidates (spec : UniqueIndexSpec) (candidates : List InputAttr) : Prop :=
  List.Forall₂ (fun column candidate => candidate.isNull = true ∨ candidate.IsValue column)
    spec.columns candidates

/-- A row holds a null or a value of the type in every column of an index. -/
def Typed (spec : UniqueIndexSpec) (values : List DecodedDatum) : Prop :=
  ∀ column ∈ spec.columns, ∃ datum, values[column.columnIndex]? = some datum ∧
    (datum = .null ∨ ∃ attr : InputAttr, attr.IsValue column ∧ attr.datum = datum)

/-! ## Key parts -/

variable {column : IndexColumnSpec} {values : List DecodedDatum} {spec : UniqueIndexSpec}

theorem rowAt_readable {attr : InputAttr} (value : attr.IsValue column) :
    attr.readable = true := by
  obtain ⟨len, stored⟩ := isSome_iff_exists.mp value.stored
  exact (tupleStorageLen_eq_some stored).2.2.1 attr (by simp [rowAt])

theorem InputAttr.datum_ne_null {attr : InputAttr} (notNull : attr.isNull = false) :
    attr.datum ≠ .null := by
  simp only [InputAttr.datum, notNull]
  split
  · contradiction
  · split <;> simp

theorem indexKeyPartForKeyDatum_value {spec : UniqueIndexSpec} {column : IndexColumnSpec}
    {attr : InputAttr} (value : attr.IsValue column) :
    indexKeyPartForKeyDatum spec column attr.keyDatum = keyPartOf column attr.datum := by
  have notNull : ¬attr.isNull = true := by simp [value.notNull]
  obtain ⟨flag, size⟩ := InputAttr.fits.flag value.fits notNull
  by_cases byval : attr.byval = true
  · have typbyval : column.typbyval = true := by rwa [← flag]
    simp [indexKeyPartForKeyDatum, InputAttr.keyDatum, InputAttr.datum, keyPartOf, notNull, byval,
      typbyval]
  · have inPayload : attr.inPayload = true := by simp [InputAttr.inPayload, notNull, byval]
    have typbyref : ¬column.typbyval = true := by rwa [← flag]
    have readable := rowAt_readable value
    have stored := byrefKeyBytesFromBytes_eq readable inPayload (size byval)
    have datum := byrefKeyBytes_keyDatum readable inPayload (size byval)
    unfold indexKeyPartForKeyDatum
    rw [datum, ← stored]
    simp [InputAttr.keyDatum, InputAttr.datum, keyPartOf, notNull, byval, typbyref]

theorem indexKeyPartForDecoded_of_value {datum : DecodedDatum} (notNull : datum ≠ .null)
    (found : values[column.columnIndex]? = some datum) :
    indexKeyPartForDecoded spec values column = keyPartOf column datum := by
  unfold indexKeyPartForDecoded
  rw [found]
  cases datum with
  | null => exact absurd rfl notNull
  | byValue value => rfl
  | byRef bytes => rfl

theorem keyPartOf_ne_null (column : IndexColumnSpec) (datum : DecodedDatum) :
    keyPartOf column datum ≠ some .null := by
  cases datum with
  | null => simp [keyPartOf]
  | byValue value => simp [keyPartOf]
  | byRef bytes =>
    unfold keyPartOf
    split <;> simp

theorem equalAt_iff {eq : Equality} {candidate : InputAttr} (canonical : Canonical eq column)
    (typed : ∃ datum, values[column.columnIndex]? = some datum ∧
      (datum = .null ∨ ∃ attr : InputAttr, attr.IsValue column ∧ attr.datum = datum))
    (fit : candidate.isNull = true ∨ candidate.IsValue column) :
    EqualAt eq spec values column candidate ↔
      ∃ part, indexKeyPartForKeyDatum spec column candidate.keyDatum = some part ∧
        indexKeyPartForDecoded spec values column = some part := by
  obtain ⟨datum, found, form⟩ := typed
  have reads : EqualAt eq spec values column candidate ↔
      if candidate.isNull then spec.nullsNotDistinct = true ∧ datum = .null
      else datum ≠ .null ∧ eq column datum candidate.datum = true := by
    constructor
    · rintro ⟨other, foundOther, equal⟩
      cases found.symm.trans foundOther
      exact equal
    · exact fun equal => ⟨datum, found, equal⟩
  have nullPart : candidate.isNull = true →
      indexKeyPartForKeyDatum spec column candidate.keyDatum =
        if spec.nullsNotDistinct then some .null else none := by
    intro null
    simp [indexKeyPartForKeyDatum, InputAttr.keyDatum, null]
  rw [reads]
  rcases form with rfl | ⟨attr, value, rfl⟩
  · -- a stored null is equal to a null only
    have part : indexKeyPartForDecoded spec values column =
        if spec.nullsNotDistinct then some .null else none := by
      unfold indexKeyPartForDecoded
      rw [found]
      rfl
    rw [part]
    by_cases null : candidate.isNull = true
    · rw [nullPart null]
      cases spec.nullsNotDistinct <;> simp [null]
    · have other := @indexKeyPartForKeyDatum_value spec column candidate (fit.resolve_left null)
      have notNull := keyPartOf_ne_null column candidate.datum
      rw [other]
      cases spec.nullsNotDistinct <;> simp [null, notNull]
  · have notNull := InputAttr.datum_ne_null value.notNull
    rw [indexKeyPartForDecoded_of_value notNull found]
    by_cases null : candidate.isNull = true
    · have other := keyPartOf_ne_null column attr.datum
      rw [nullPart null]
      cases spec.nullsNotDistinct <;> simp [null, notNull, other]
    · have isValue := fit.resolve_left null
      rw [indexKeyPartForKeyDatum_value isValue, if_neg null]
      have same := canonical attr candidate value isValue
      constructor
      · rintro ⟨-, equal⟩
        obtain ⟨part, first, second⟩ := same.mp equal
        exact ⟨part, second, first⟩
      · rintro ⟨part, first, second⟩
        exact ⟨notNull, same.mpr ⟨part, second, first⟩⟩

/-! ## Whole keys -/

theorem IndexKey.ofParts_inj {a b : List IndexKeyPart} (same : IndexKey.ofParts a = IndexKey.ofParts b) :
    a = b := by
  unfold IndexKey.ofParts at same
  split at same <;> split at same <;> simp_all

/-- Two lists of parts are built and equal exactly if this holds part by part. -/
theorem mapM_zip_eq {α β γ : Type} {f : α → β → Option γ} {g : α → Option γ} {as : List α}
    {bs : List β} (length : bs.length = as.length) :
    (∃ parts, (as.zip bs).mapM (fun pair => f pair.1 pair.2) = some parts ∧
        as.mapM g = some parts) ↔
      List.Forall₂ (fun a b => ∃ part, f a b = some part ∧ g a = some part) as bs := by
  induction as generalizing bs with
  | nil =>
    rw [List.length_nil, List.length_eq_zero_iff] at length
    subst length
    simp
  | cons a rest ih =>
    cases bs with
    | nil => cases length
    | cons b more =>
      have shorter : more.length = rest.length := by simpa using length
      rw [List.forall₂_cons, ← ih shorter, List.zip_cons_cons, List.mapM_cons, List.mapM_cons]
      constructor
      · rintro ⟨parts, first, second⟩
        simp only [Option.bind_eq_bind, Option.bind_eq_some_iff, Option.pure_def,
          Option.some.injEq] at first second
        obtain ⟨part, head, parts', tail, rfl⟩ := first
        obtain ⟨part', head', parts'', tail', same⟩ := second
        obtain ⟨rfl, rfl⟩ := List.cons.inj same
        exact ⟨⟨part', head, head'⟩, parts'', tail, tail'⟩
      · rintro ⟨⟨part, head, head'⟩, parts, tail, tail'⟩
        exact ⟨part :: parts, by simp [head, tail], by simp [head', tail']⟩

theorem forall₂_congr {α β : Type} {P R S : α → β → Prop} {as : List α} {bs : List β}
    (pairs : List.Forall₂ P as bs) (same : ∀ a ∈ as, ∀ b, P a b → (R a b ↔ S a b)) :
    List.Forall₂ R as bs ↔ List.Forall₂ S as bs := by
  induction pairs with
  | nil => simp
  | cons first rest ih =>
    rw [forall₂_cons, forall₂_cons, same _ (mem_cons_self ..) _ first,
      ih fun a mem => same a (.tail _ mem)]

theorem equalKey_iff {eq : Equality} {candidates : List InputAttr}
    (canonical : ∀ column ∈ spec.columns, Canonical eq column) (typed : Typed spec values)
    (fit : Candidates spec candidates) :
    EqualKey eq spec values candidates ↔
      ∃ key, indexKeyForKeyDatums spec (candidates.map InputAttr.keyDatum) = some key ∧
        indexKeyForDecoded spec values = some key := by
  have length : (candidates.map InputAttr.keyDatum).length = spec.columns.length := by
    rw [length_map, fit.length_eq]
  have parts := @mapM_zip_eq _ _ _ (indexKeyPartForKeyDatum spec) (indexKeyPartForDecoded spec values)
    spec.columns (candidates.map InputAttr.keyDatum) length
  have each : List.Forall₂ (EqualAt eq spec values) spec.columns candidates ↔
      List.Forall₂ (fun column datum => ∃ part,
        indexKeyPartForKeyDatum spec column datum = some part ∧
          indexKeyPartForDecoded spec values column = some part)
        spec.columns (candidates.map InputAttr.keyDatum) := by
    rw [forall₂_map_right_iff]
    exact forall₂_congr fit fun column mem candidate form =>
      equalAt_iff (canonical column mem) (typed column mem) form
  rw [EqualKey, each, ← parts]
  unfold indexKeyForKeyDatums indexKeyForDecoded
  rw [if_neg (not_not_intro length)]
  constructor
  · rintro ⟨parts, first, second⟩
    exact ⟨IndexKey.ofParts parts, by rw [first]; rfl, by rw [second]; rfl⟩
  · rintro ⟨key, first, second⟩
    obtain ⟨parts, built, rfl⟩ := map_eq_some_iff.mp first
    obtain ⟨parts', built', same⟩ := map_eq_some_iff.mp second
    obtain rfl := IndexKey.ofParts_inj same
    exact ⟨parts', built, built'⟩

/-! ## The law -/

/-- A state in which the maps are in order for the key of the candidates, and
    the rows hold values of the types of the index. -/
structure IndexInOrder (relation : RelationStorage) (overlays : Overlays) (rowCount : Nat)
    (spec : UniqueIndexSpec) (candidates : List InputAttr) (replacing cached : Option Tid) : Prop where
  rows : relation.RowsInOrder overlays rowCount
  typed : ∀ tid ∈ relation.visibleTids overlays, ∀ values,
    relation.findVisibleTuple overlays tid = some values → Typed spec values
  keys : ∀ key, indexKeyForKeyDatums spec (candidates.map InputAttr.keyDatum) = some key →
    relation.KeysInOrder overlays spec key
  probed : ∀ key, indexKeyForKeyDatums (RelationStorage.probeSpec spec)
    (candidates.map InputAttr.keyDatum) = some key →
      relation.KeysInOrder overlays (RelationStorage.probeSpec spec) key
  primary : spec.isPrimary = true → ∀ key,
    indexKeyForKeyDatums spec (candidates.map InputAttr.keyDatum) = some key →
      relation.PrimaryInOrder overlays rowCount spec key
  current : RelationStorage.Current relation overlays replacing
  fresh : ∀ tid ∈ cached, ∀ key, indexKeyForKeyDatums (RelationStorage.probeSpec spec)
    (candidates.map InputAttr.keyDatum) = some key → tid ∈ relation.visibleTids overlays ∧
      relation.HoldsKey overlays (RelationStorage.probeSpec spec) key tid

/-- The session sees a row whose key is equal to the candidates. -/
def SeesEqual (eq : Equality) (relation : RelationStorage) (overlays : Overlays)
    (spec : UniqueIndexSpec) (candidates : List InputAttr) (tid : Tid) : Prop :=
  tid ∈ relation.visibleTids overlays ∧ ∃ values,
    relation.findVisibleTuple overlays tid = some values ∧ EqualKey eq spec values candidates

/-- The unique check and the probe decide by the operators of the types, for
    every index on columns of the given types and every state in order. -/
def KeyIdentity (eq : Equality) (types : IndexColumnSpec → Prop) : Prop :=
  ∀ relation overlays rowCount spec candidates replacing cached,
    (∀ column ∈ spec.columns, types column) → Candidates spec candidates →
    IndexInOrder relation overlays rowCount spec candidates replacing cached →
    ((relation.uniqueIndexConflictWithSpec overlays rowCount spec
        (candidates.map InputAttr.keyDatum) replacing).isSome ↔
      ∃ tid, some tid ≠ replacing ∧ SeesEqual eq relation overlays spec candidates tid) ∧
    ((relation.probe overlays rowCount spec (candidates.map InputAttr.keyDatum) cached).isSome ↔
      ∃ tid, SeesEqual eq relation overlays (RelationStorage.probeSpec spec) candidates tid)

section Law

variable {relation : RelationStorage} {overlays : Overlays} {rowCount : Nat}
  {spec : UniqueIndexSpec} {candidates : List InputAttr} {replacing cached : Option Tid}

/-- The check, by key parts. -/
theorem IndexInOrder.conflict_isSome
    (inOrder : IndexInOrder relation overlays rowCount spec candidates replacing cached) :
    (relation.uniqueIndexConflictWithSpec overlays rowCount spec
        (candidates.map InputAttr.keyDatum) replacing).isSome ↔
      ∃ key, indexKeyForKeyDatums spec (candidates.map InputAttr.keyDatum) = some key ∧
        ∃ tid ∈ relation.visibleTids overlays, some tid ≠ replacing ∧
          relation.HoldsKey overlays spec key tid := by
  unfold uniqueIndexConflictWithSpec
  cases built : indexKeyForKeyDatums spec (candidates.map InputAttr.keyDatum) with
  | none => simp
  | some key =>
    have exact_ := conflictForKey_isSome inOrder.rows (inOrder.keys key built)
      (fun isPrimary => inOrder.primary isPrimary key built) inOrder.current
    simpa using exact_

/-- With canonical key parts a row with an equal key is a row with the same key. -/
theorem seesEqual_iff {eq : Equality} (canonical : ∀ column ∈ spec.columns, Canonical eq column)
    (fit : Candidates spec candidates) {tid : Tid} (mem : tid ∈ relation.visibleTids overlays)
    (typed : ∀ values, relation.findVisibleTuple overlays tid = some values → Typed spec values) :
    SeesEqual eq relation overlays spec candidates tid ↔
      ∃ key, indexKeyForKeyDatums spec (candidates.map InputAttr.keyDatum) = some key ∧
        relation.HoldsKey overlays spec key tid := by
  unfold SeesEqual HoldsKey
  cases found : relation.findVisibleTuple overlays tid with
  | none => simp
  | some values =>
    have same := equalKey_iff canonical (typed values found) fit
    simpa [mem] using same

end Law

/-! ## One row -/

/-- A page with one committed tuple. -/
def oneTuplePage (tuple : Bytes) : Page where
  block := 0
  capacity := max pageSize tuple.length
  bytes := Page.copyBytes (fun _ => 0) 0 tuple
  used := tuple.length
  linePointers := [⟨0, tuple.length, .live, 0, 0, 0⟩]
  pendingTupleBytes := 0
  liveTupleBytes := tuple.length
  deadTupleBytes := 0
  usedLe := le_max_right ..
  within := by simp

/-- A relation with one committed row and no primary key. -/
def oneRow (tuple : Bytes) : RelationStorage :=
  { RelationStorage.default with
    pages := [some (oneTuplePage tuple)]
    filed := by
      intro block page found
      cases block with
      | zero =>
        rw [List.getElem?_cons_zero, Option.some.injEq, Option.some.injEq] at found
        rw [← found]
        rfl
      | succ block => simp at found
    physicalBlocks := OrdSet.empty.insert 0
    liveTids := OrdSet.empty.insert ⟨0, 1⟩
    nextBlock := 1
    liveTupleCount := 1
    liveTupleBytes := tuple.length }

variable (tuple : Bytes)

theorem oneRow_tupleSlice (tid : Tid) :
    (oneRow tuple).tupleSlice tid false = if tid = ⟨0, 1⟩ then some tuple else none := by
  have read : (oneTuplePage tuple).tupleSlice 1 false = some tuple := by
    simp [Page.tupleSlice, Page.line, oneTuplePage, Page.readBytes_copyBytes_self]
  obtain ⟨block, offset⟩ := tid
  cases block with
  | succ block => simp [tupleSlice, page, oneRow]
  | zero =>
    have paged : (oneRow tuple).tupleSlice ⟨0, offset⟩ false =
        (oneTuplePage tuple).tupleSlice offset false := rfl
    rw [paged]
    rcases offset with _ | _ | offset
    · simp [Page.tupleSlice, Page.line]
    · simp [read]
    · simp [Page.tupleSlice, Page.line, oneTuplePage]

theorem physicalVisibleTupleSlice_nil (relation : RelationStorage) (tid : Tid) :
    relation.physicalVisibleTupleSlice [] tid = relation.tupleSlice tid false := by
  simp [physicalVisibleTupleSlice, invalidateTid,
    invalidateTidFrom, clearTid, ownInsertedTid]

theorem mem_visibleTids_oneRow {tuple : Bytes} {tid : Tid} :
    tid ∈ (oneRow tuple).visibleTids [] ↔ tid = ⟨0, 1⟩ := by
  have listed : ((oneRow tuple).liveTids).elems = [⟨0, 1⟩] := rfl
  unfold visibleTids
  rw [mem_filter, physicalVisibleTupleSlice_nil, oneRow_tupleSlice, listed,
    ← OrdSet.mem_def, OrdSet.mem_ofList]
  by_cases here : tid = ⟨0, 1⟩ <;> simp [here]

theorem oneRow_hotNext (tid : Tid) : (oneRow tuple).hotNext [] tid = none := rfl

theorem oneRow_resolve (tid : Tid) :
    (oneRow tuple).resolveTidRedirect [] tid = tid :=
  (Ends.stop (oneRow_hotNext tuple tid)).follow_eq

theorem findVisibleTuple_oneRow :
    (oneRow tuple).findVisibleTuple [] ⟨0, 1⟩ = decodeTuple tuple := by
  unfold findVisibleTuple visibleTupleSlice
  rw [oneRow_resolve, oneRow_resolve, physicalVisibleTupleSlice_nil, oneRow_tupleSlice, if_pos rfl,
    bind_some]

theorem oneRow_inOrder {tuple : Bytes} (decodes : (decodeTuple tuple).isSome) :
    (oneRow tuple).RowsInOrder [] 1 where
  listed := by
    intro tid seen
    rw [physicalVisibleTupleSlice_nil, oneRow_tupleSlice] at seen
    rw [mem_visibleTids_oneRow]
    by_contra other
    simp [other] at seen
  pending := by
    intro tid seen
    simp [visiblePendingSlice, invalidateTid, invalidateTidFrom,
      clearTid, pendingTupleSlice] at seen
  decoded := by
    intro tid mem
    rw [mem_visibleTids_oneRow] at mem
    rw [mem, findVisibleTuple_oneRow]
    exact decodes
  ended := fun tid => ⟨tid, .stop (oneRow_hotNext tuple tid)⟩
  settled := fun _ => oneRow_hotNext ..
  counted := by simp
  quiet := fun _ tid => ⟨rfl, physicalVisibleTupleSlice_nil ..⟩

/-- Without levels and without a primary key no entry can be out of order. -/
theorem oneRow_keysInOrder (spec : UniqueIndexSpec) (key : IndexKey) :
    (oneRow tuple).KeysInOrder [] spec key where
  own := by simp
  entries := by
    rintro tid (⟨level, mem, -⟩ | stored)
    · cases mem
    · cases stored
  unhidden := by simp

/-! ## The law holds for canonical key parts only -/

section Necessity

variable {column : IndexColumnSpec} {v w : InputAttr}

theorem rowAt_datum (column : IndexColumnSpec) (attr : InputAttr) :
    ((rowAt column attr).map InputAttr.datum)[column.columnIndex]? = some attr.datum := by
  simp [rowAt]

theorem rowAt_decoded (value : v.IsValue column) :
    decodeTuple (tupleBytes (rowAt column v)) = some ((rowAt column v).map InputAttr.datum) := by
  obtain ⟨len, stored⟩ := isSome_iff_exists.mp value.stored
  refine decodeTuple_tupleBytes stored ?_
  intro attr mem
  rcases mem_append.mp mem with filler | last
  · rw [(mem_replicate.mp filler).2]
    decide
  · rw [mem_singleton.mp last]
    exact value.word

/-- The index on one column. -/
def onColumn (column : IndexColumnSpec) : UniqueIndexSpec := ⟨0, false, false, [column]⟩

theorem oneRow_indexInOrder (value : v.IsValue column) :
    IndexInOrder (oneRow (tupleBytes (rowAt column v))) [] 1 (onColumn column) [w] none none where
  rows := oneRow_inOrder (by rw [rowAt_decoded value]; rfl)
  typed := by
    intro tid mem values found other inSpec
    rw [mem_visibleTids_oneRow] at mem
    rw [mem, findVisibleTuple_oneRow, rowAt_decoded value, some.injEq] at found
    obtain rfl : other = column := by simpa [onColumn] using inSpec
    exact ⟨v.datum, by rw [← found, rowAt_datum], .inr ⟨v, value, rfl⟩⟩
  keys := fun key _ => oneRow_keysInOrder ..
  probed := fun key _ => oneRow_keysInOrder ..
  primary := by simp [onColumn]
  current := by simp [Current]
  fresh := by simp

/-- With one row in the relation, the check for another value reports a conflict
    exactly if the key parts are the same. -/
theorem oneRow_conflict (valueV : v.IsValue column) (valueW : w.IsValue column) :
    ((oneRow (tupleBytes (rowAt column v))).uniqueIndexConflictWithSpec [] 1 (onColumn column)
        ([w].map InputAttr.keyDatum) none).isSome ↔
      ∃ part, keyPartOf column v.datum = some part ∧ keyPartOf column w.datum = some part := by
  have notNull := InputAttr.datum_ne_null valueV.notNull
  have candidate : indexKeyForKeyDatums (onColumn column) ([w].map InputAttr.keyDatum) =
      (keyPartOf column w.datum).map IndexKey.single := by
    simp only [indexKeyForKeyDatums, onColumn, map_cons, map_nil, length_cons,
      length_nil, zip_cons_cons, zip_nil_right, mapM_cons, mapM_nil,
      indexKeyPartForKeyDatum_value valueW]
    cases keyPartOf column w.datum <;> rfl
  have stored : (oneRow (tupleBytes (rowAt column v))).findVisibleTuple [] ⟨0, 1⟩ =
      some ((rowAt column v).map InputAttr.datum) := by
    rw [findVisibleTuple_oneRow, rowAt_decoded valueV]
  have key : indexKeyForDecoded (onColumn column) ((rowAt column v).map InputAttr.datum) =
      (keyPartOf column v.datum).map IndexKey.single := by
    simp only [indexKeyForDecoded, onColumn, mapM_cons, mapM_nil,
      indexKeyPartForDecoded_of_value notNull (rowAt_datum column v)]
    cases keyPartOf column v.datum <;> rfl
  rw [(@oneRow_indexInOrder column v w valueV).conflict_isSome, candidate]
  constructor
  · rintro ⟨_, built, tid, mem, -, holds⟩
    rw [mem_visibleTids_oneRow] at mem
    subst mem
    obtain ⟨part, partW, rfl⟩ := map_eq_some_iff.mp built
    unfold HoldsKey at holds
    rw [stored, bind_some, key] at holds
    obtain ⟨part', partV, same⟩ := map_eq_some_iff.mp holds
    cases same
    exact ⟨_, partV, partW⟩
  · rintro ⟨part, partV, partW⟩
    refine ⟨.single part, by rw [partW]; rfl, ⟨0, 1⟩, mem_visibleTids_oneRow.mpr rfl, by simp, ?_⟩
    unfold HoldsKey
    rw [stored, bind_some, key, partV]
    rfl

theorem oneRow_seesEqual {eq : Equality} (valueV : v.IsValue column) (valueW : w.IsValue column) :
    (∃ tid, some tid ≠ none ∧
      SeesEqual eq (oneRow (tupleBytes (rowAt column v))) [] (onColumn column) [w] tid) ↔
        eq column v.datum w.datum = true := by
  have notNull := InputAttr.datum_ne_null valueV.notNull
  have stored : (oneRow (tupleBytes (rowAt column v))).findVisibleTuple [] ⟨0, 1⟩ =
      some ((rowAt column v).map InputAttr.datum) := by
    rw [findVisibleTuple_oneRow, rowAt_decoded valueV]
  constructor
  · rintro ⟨tid, -, mem, values, found, equal⟩
    rw [mem_visibleTids_oneRow] at mem
    subst mem
    rw [stored, some.injEq] at found
    subst found
    obtain ⟨datum, there, same⟩ := (forall₂_cons.mp equal).1
    rw [rowAt_datum, some.injEq] at there
    subst there
    rw [if_neg (by simp [valueW.notNull])] at same
    exact same.2
  · intro equal
    refine ⟨⟨0, 1⟩, by simp, mem_visibleTids_oneRow.mpr rfl, _, stored, ?_⟩
    refine .cons ⟨v.datum, rowAt_datum .., ?_⟩ .nil
    rw [if_neg (by simp [valueW.notNull])]
    exact ⟨notNull, equal⟩

end Necessity

/-- `float8_eq` on the bits of two numbers: the two zeros are equal, and all
    numbers that are none are. -/
def float8Eq (v w : Nat) : Bool :=
  let isNan := fun bits : Nat => bits / 2 ^ 52 % 2 ^ 11 = 2047 && bits % 2 ^ 52 ≠ 0
  isNan v && isNan w || v % 2 ^ 63 = 0 && w % 2 ^ 63 = 0 || v = w

/-- The base-10000 digits of a number, two bytes each. -/
def numericDigits : Bytes → List Nat
  | low :: high :: rest => (low.toNat + 256 * high.toNat) :: numericDigits rest
  | _ => []

/-- Sign, weight and digits of a stored `numeric` with the short header, without
    the display scale and without trailing zero digits. -/
def numericShort (payload : Bytes) : Bool × Nat × List Nat :=
  let header := leValue (payload.take 2)
  (header / 2 ^ 13 % 2 = 1, header % 2 ^ 7,
    ((numericDigits (payload.drop 2)).reverse.dropWhile (· = 0)).reverse)

def float8Column : IndexColumnSpec := ⟨0, 701, true, 8⟩

def numericColumn : IndexColumnSpec := ⟨0, 1700, false, -1⟩

/-- `float8_eq` and, for values with short headers, `numeric_eq`. -/
def exampleEquality : Equality := fun column v w =>
  match v, w with
  | .byValue a, .byValue b => if column.typeOid = 701 then float8Eq a b else a = b
  | .byRef a, .byRef b =>
    if column.typeOid = 1700 then numericShort (a.drop 1) = numericShort (b.drop 1) else a = b
  | _, _ => false

def float8Value (bits : Nat) : InputAttr := ⟨false, true, bits, [], 0⟩

def numericValue (payload : Bytes) : InputAttr :=
  ⟨false, false, 64, shortVarlena payload, payload.length + 1⟩

/-- The unique index on a column. -/
def uniqueOn (column : IndexColumnSpec) : UniqueIndexSpec := ⟨9, false, false, [column]⟩

/-- The number of visible rows after one row was inserted and committed, what
    the check and the probe of the index for another value find, and whether the
    value is equal to the stored one. -/
def afterInsert (column : IndexColumnSpec) (stored asked : InputAttr) :
    Option (Nat × Option Tid × Option Tid × Bool) := do
  let engine ← run (Engine.step fun _ => ⟨[uniqueOn column], none⟩) .initial
    [⟨1, .call (.insert 7 [stored] .enforce none false)⟩, ⟨1, .call .xactCommit⟩]
  let relation := engine.storage.relations 7
  some ((relation.visibleRows []).length,
    relation.uniqueIndexConflictWithSpec [] (engine.rowCounts 7) (uniqueOn column)
      [asked.keyDatum] none,
    relation.probe [] (engine.rowCounts 7) (uniqueOn column) [asked.keyDatum] none,
    exampleEquality column stored.datum asked.datum)

/-- The values of the second column and the probe of its index for a number,
    after a row with a primary key in the first column was committed. -/
def afterKeyedInsert (id code asked : Nat) :
    Option (List (Option DecodedDatum) × Option Tid) := do
  let codes : IndexColumnSpec := ⟨1, 23, true, 4⟩
  let primary : UniqueIndexSpec := ⟨8, true, false, [⟨0, 23, true, 4⟩]⟩
  let engine ← run (Engine.step fun _ => ⟨[primary, uniqueOn codes], some primary⟩) .initial
    [⟨1, .call (.insert 7 [⟨false, true, id, [], 0⟩, ⟨false, true, code, [], 0⟩] .enforce none true)⟩,
      ⟨1, .call .xactCommit⟩]
  let relation := engine.storage.relations 7
  some ((relation.visibleTids []).map fun tid =>
      (relation.findVisibleTuple [] tid).bind fun values => values[1]?,
    relation.probe [] (engine.rowCounts 7) (uniqueOn codes) [⟨false, asked, []⟩] none)

end FastPg.Storage
