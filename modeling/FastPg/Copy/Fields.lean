import Mathlib

/-! # The fields of a COPY line

A line of COPY data is cut into fields, and each field is the null string or a
value. Beside the parser stand the rules by which the server writes such lines:
backslash escapes in text format, quotes in CSV format. A line that was written
by the rules is not always read back: text fields are cut at every delimiter,
escaped or not, and a quoted field is compared with the null string like any
other.
-/

namespace FastPg.Copy

open List

abbrev Text := List Char

def copyFormatText : Int := 0

def copyFormatCsv : Int := 2

/-- What the line parser reads of a COPY command. -/
structure CopyTarget where
  format : Int
  delimiter : Text
  nullPrint : Text
  deriving DecidableEq, Repr

def delimiterChar (delimiter : Text) (default : Char) : Char := delimiter.headD default

def splitCopyTextFields (line : Text) (delimiter : Char) : List Text := line.splitOn delimiter

/-- The loop of `parse_copy_csv_fields`: whether a quote is open, the fields so
    far, the field in progress and the rest of the line. -/
def parseCsvFrom (delimiter : Char) :
    (inQuotes : Bool) → (fields : List Text) → (field line : Text) → Except String (List Text)
  | true, _, _, [] => .error "unterminated CSV quoted field"
  | false, fields, field, [] => .ok (fields ++ [field])
  | true, fields, field, '"' :: '"' :: rest =>
    parseCsvFrom delimiter true fields (field ++ ['"']) rest
  | true, fields, field, ch :: rest =>
    if ch = '"' then parseCsvFrom delimiter false fields field rest
    else parseCsvFrom delimiter true fields (field ++ [ch]) rest
  | false, fields, field, ch :: rest =>
    if ch = delimiter then parseCsvFrom delimiter false (fields ++ [field]) [] rest
    else if ch = '"' ∧ field = [] then parseCsvFrom delimiter true fields field rest
    else parseCsvFrom delimiter false fields (field ++ [ch]) rest

def parseCopyCsvFields (line : Text) (delimiter : Char) : Except String (List Text) :=
  parseCsvFrom delimiter false [] [] line

/-- What a backslash before a character stands for. -/
def unescape : Char → Char
  | 'b' => '\x08'
  | 'f' => '\x0c'
  | 'n' => '\n'
  | 'r' => '\r'
  | 't' => '\t'
  | other => other

def decodeCopyTextField : Text → Text
  | [] => []
  | ['\\'] => ['\\']
  | '\\' :: ch :: rest => unescape ch :: decodeCopyTextField rest
  | ch :: rest => ch :: decodeCopyTextField rest

namespace CopyTarget

/-- A field of the line: the null string or a value. -/
def readField (target : CopyTarget) (field : Text) : Option Text :=
  if field = target.nullPrint then none
  else if target.format = copyFormatText then some (decodeCopyTextField field)
  else some field

/-- `parse_input_fields`. -/
def parseInputFields (target : CopyTarget) (line : Text) : Except String (List (Option Text)) :=
  let rawFields :=
    if target.format = copyFormatCsv then
      parseCopyCsvFields line (delimiterChar target.delimiter ',')
    else if target.format = copyFormatText then
      .ok (splitCopyTextFields line (delimiterChar target.delimiter '\t'))
    else .error s!"COPY FROM format {target.format} is not supported"
  rawFields.map fun fields => fields.map target.readField

end CopyTarget

/-! ## How lines are written -/

/-- The letter that stands for a control character in text format. -/
def controlLetter : Char → Option Char
  | '\x08' => some 'b'
  | '\x0c' => some 'f'
  | '\n' => some 'n'
  | '\r' => some 'r'
  | '\t' => some 't'
  | '\x0b' => some 'v'
  | _ => none

/-- `CopyAttributeOutText` for one character. -/
def escapeChar (delimiter ch : Char) : Text :=
  match controlLetter ch with
  | some letter => ['\\', letter]
  | none => if ch = '\\' ∨ ch = delimiter then ['\\', ch] else [ch]

def attributeOutText (delimiter : Char) (value : Text) : Text := value.flatMap (escapeChar delimiter)

/-- `CopyAttributeOutCSV` with the default quote and escape characters: the null
    string, a sole end marker and special characters are quoted. -/
def attributeOutCsv (delimiter : Char) (nullPrint : Text) (singleAttr forceQuote : Bool)
    (value : Text) : Text :=
  let useQuote := forceQuote || value = nullPrint || (singleAttr && value = ['\\', '.']) ||
    value.any fun ch => ch = delimiter || ch = '"' || ch = '\n' || ch = '\r'
  if useQuote then
    '"' :: value.flatMap (fun ch => if ch = '"' then ['"', '"'] else [ch]) ++ ['"']
  else value

/-- One field of a written row; `forceQuote` is the column's option. -/
def fieldOut (target : CopyTarget) (delimiter : Char) (singleAttr forceQuote : Bool) :
    Option Text → Text
  | none => target.nullPrint
  | some value =>
    if target.format = copyFormatCsv then
      attributeOutCsv delimiter target.nullPrint singleAttr forceQuote value
    else attributeOutText delimiter value

/-- `CopyToTextLikeOneRow` without the end of the line. -/
def formatRow (target : CopyTarget) (delimiter : Char) (forceQuote : Nat → Bool)
    (row : List (Option Text)) : Text :=
  [delimiter].intercalate (row.mapIdx fun index field =>
    fieldOut target delimiter (row.length == 1) (forceQuote index) field)

/-- The options that `ProcessCopyOptions` accepts for the two formats, as far as
    they concern lines. -/
structure Accepted (target : CopyTarget) (delimiter : Char) : Prop where
  format : target.format = copyFormatText ∨ target.format = copyFormatCsv
  single : target.delimiter = [delimiter]
  oneByte : delimiter.val < 128
  lineEnd : delimiter ≠ '\n' ∧ delimiter ≠ '\r'
  nullLineEnd : '\n' ∉ target.nullPrint ∧ '\r' ∉ target.nullPrint
  nullApart : delimiter ∉ target.nullPrint
  plain : target.format ≠ copyFormatCsv →
    delimiter ∉ "\\.abcdefghijklmnopqrstuvwxyz0123456789".toList
  quote : target.format = copyFormatCsv → delimiter ≠ '"' ∧ '"' ∉ target.nullPrint

/-! ## Text format -/

section Text

variable {delimiter : Char} {pieces : List Text}

section Plain

variable (plain : delimiter ∉ "\\.abcdefghijklmnopqrstuvwxyz0123456789".toList)
include plain

theorem unescape_of_plain : unescape delimiter = delimiter := by
  unfold unescape
  split <;> first | rfl | exact absurd (by decide) plain

/-- The letters of control characters are no delimiters. -/
theorem letter_ne_delimiter
    {ch letter : Char} (control : controlLetter ch = some letter) : delimiter ≠ letter := by
  rintro rfl
  unfold controlLetter at control
  split at control <;> cases control <;> exact plain (by decide)

/-- Every escape but that of a vertical tab is undone. -/
theorem decode_escaped (ch : Char) (rest : Text) :
    decodeCopyTextField (escapeChar delimiter ch ++ rest) =
      (if ch = '\x0b' then 'v' else ch) :: decodeCopyTextField rest := by
  unfold escapeChar
  cases control : controlLetter ch with
  | some letter =>
    unfold controlLetter at control
    split at control <;> cases control <;> rfl
  | none =>
    have raw : ch ≠ '\x0b' := by
      rintro rfl
      cases control
    dsimp only
    rw [if_neg raw]
    split
    · rename_i special
      have stays : unescape ch = ch := by
        rcases special with rfl | rfl
        · rfl
        · exact unescape_of_plain plain
      simp [decodeCopyTextField, stays]
    · rename_i ordinary
      rw [not_or] at ordinary
      simp [decodeCopyTextField, ordinary.1]

theorem decode_attributeOutText (value : Text) :
    decodeCopyTextField (attributeOutText delimiter value) =
      value.map fun ch => if ch = '\x0b' then 'v' else ch := by
  induction value with
  | nil => rfl
  | cons ch rest ih =>
    rw [attributeOutText, flatMap_cons, decode_escaped plain, map_cons]
    exact congrArg _ ih

/-- A delimiter is left in the written value, behind a backslash, unless it is
    a control character with a letter. -/
theorem delimiter_mem_attributeOutText {value : Text} :
    delimiter ∈ attributeOutText delimiter value ↔
      delimiter ∈ value ∧ controlLetter delimiter = none := by
  have backslash : delimiter ≠ '\\' := fun same => plain (by simp [same])
  have each : ∀ ch, delimiter ∈ escapeChar delimiter ch ↔
      ch = delimiter ∧ controlLetter delimiter = none := by
    intro ch
    unfold escapeChar
    cases control : controlLetter ch with
    | some letter =>
      have apart := letter_ne_delimiter plain control
      simp only [mem_cons, not_mem_nil, backslash, apart, or_self, false_iff]
      rintro ⟨rfl, free⟩
      rw [control] at free
      cases free
    | none =>
      dsimp only
      split
      · simp only [mem_cons, not_mem_nil, or_false, backslash, false_or]
        constructor
        · rintro rfl
          exact ⟨rfl, control⟩
        · rintro ⟨rfl, -⟩
          rfl
      · rename_i ordinary
        rw [not_or] at ordinary
        simp [Ne.symm ordinary.2, ordinary.2]
  simp only [attributeOutText, mem_flatMap, each]
  constructor
  · rintro ⟨ch, mem, rfl, free⟩
    exact ⟨mem, free⟩
  · rintro ⟨mem, free⟩
    exact ⟨delimiter, mem, rfl, free⟩

end Plain

theorem length_splitOn (line : Text) :
    (line.splitOn delimiter).length = line.count delimiter + 1 := by
  unfold splitOn
  induction line with
  | nil => rfl
  | cons ch rest ih =>
    rw [splitOnP_cons_eq_if_modifyHead, count_cons]
    split <;> simp_all

theorem count_intercalate (nonempty : pieces ≠ []) :
    ([delimiter].intercalate pieces).count delimiter + 1 =
      pieces.length + (pieces.map (count delimiter)).sum := by
  induction pieces with
  | nil => exact absurd rfl nonempty
  | cons piece rest ih =>
    cases rest with
    | nil =>
      simp only [intercalate_singleton, length_singleton, map_cons, map_nil,
        sum_cons, sum_nil]
      omega
    | cons next more =>
      have tail := ih (by simp)
      rw [intercalate_cons_cons]
      simp only [count_append, count_cons_self, count_nil, length_cons,
        map_cons, sum_cons] at tail ⊢
      omega

/-- A joined line is cut where it was joined if and only if no piece contains
    the delimiter. -/
theorem splitOn_length_iff (nonempty : pieces ≠ []) :
    (([delimiter].intercalate pieces).splitOn delimiter).length = pieces.length ↔
      ∀ piece ∈ pieces, delimiter ∉ piece := by
  rw [length_splitOn, count_intercalate nonempty, Nat.add_eq_left, List.sum_eq_zero_iff_forall_eq_nat]
  simp [count_eq_zero]

end Text

/-! ## CSV format -/

section Csv

variable {delimiter : Char}

/-- The parser takes a piece for a field, whatever comes behind it. -/
def ReadsAs (delimiter : Char) (piece content : Text) : Prop :=
  ∀ fields rest, (rest = [] ∨ ∃ more, rest = delimiter :: more) →
    parseCsvFrom delimiter false fields [] (piece ++ rest) =
      parseCsvFrom delimiter false fields content rest

theorem parseCsvFrom_plain (piece : Text) (plain : ∀ ch ∈ piece, ch ≠ delimiter ∧ ch ≠ '"')
    (fields : List Text) (field rest : Text) :
    parseCsvFrom delimiter false fields field (piece ++ rest) =
      parseCsvFrom delimiter false fields (field ++ piece) rest := by
  induction piece generalizing field with
  | nil => simp
  | cons ch more ih =>
    have here := plain ch (mem_cons_self ..)
    rw [cons_append, parseCsvFrom, if_neg here.1, if_neg fun quote => here.2 quote.1,
      ih fun other mem => plain other (.tail _ mem)]
    simp

/-- Inside quotes the parser goes on to the closing quote. -/
theorem parseCsvFrom_quoted (value : Text) (fields : List Text) (field rest : Text)
    (closed : rest.head? ≠ some '"') :
    parseCsvFrom delimiter true fields field
        (value.flatMap (fun ch => if ch = '"' then ['"', '"'] else [ch]) ++ '"' :: rest) =
      parseCsvFrom delimiter false fields (field ++ value) rest := by
  induction value generalizing field with
  | nil =>
    cases rest with
    | nil => simp [parseCsvFrom]
    | cons next more =>
      have apart : next ≠ '"' := fun same => closed (by simp [same])
      simp [parseCsvFrom, apart]
  | cons ch more ih =>
    rw [flatMap_cons]
    by_cases quote : ch = '"'
    · subst quote
      simpa [parseCsvFrom] using ih (field ++ ['"'])
    · simpa [parseCsvFrom, quote] using ih (field ++ [ch])

theorem attributeOutCsv_readsAs (quote : delimiter ≠ '"') (nullPrint : Text)
    (singleAttr forceQuote : Bool) (value : Text) :
    ReadsAs delimiter (attributeOutCsv delimiter nullPrint singleAttr forceQuote value) value := by
  intro fields rest follows
  unfold attributeOutCsv
  dsimp only
  split
  · have closed : rest.head? ≠ some '"' := by
      rcases follows with rfl | ⟨more, rfl⟩
      · simp
      · simpa using quote
    have inside := @parseCsvFrom_quoted delimiter value fields [] rest closed
    simpa [parseCsvFrom, Ne.symm quote] using inside
  · rename_i unquoted
    simp only [Bool.or_eq_true, any_eq_true, not_or, not_exists, not_and] at unquoted
    have plain : ∀ ch ∈ value, ch ≠ delimiter ∧ ch ≠ '"' := by
      intro ch mem
      have ordinary := unquoted.2 ch mem
      simp only [decide_eq_true_eq] at ordinary
      exact ⟨ordinary.1.1.1, ordinary.1.1.2⟩
    simpa using parseCsvFrom_plain value plain fields [] rest

/-- A line of such pieces is read piece by piece. -/
theorem parseCsvFrom_pieces {pieces contents : List Text}
    (reads : Forall₂ (ReadsAs delimiter) pieces contents) (nonempty : pieces ≠ [])
    (fields : List Text) :
    parseCsvFrom delimiter false fields [] ([delimiter].intercalate pieces) =
      .ok (fields ++ contents) := by
  induction reads generalizing fields with
  | nil => exact absurd rfl nonempty
  | @cons piece content rest more first tail ih =>
    cases tail with
    | nil =>
      have whole := first fields [] (.inl rfl)
      simpa [intercalate, parseCsvFrom] using whole
    | cons second tail =>
      rw [intercalate_cons_cons, append_assoc, singleton_append,
        first fields _ (.inr ⟨_, rfl⟩), parseCsvFrom, if_pos rfl, ih (by simp)]
      simp

end Csv

/-! ## Reading back a written row -/

/-- The rows that the parser reads back. In CSV format no value is the null
    string. In text format no value is written like the null string, contains a
    vertical tab, or contains the delimiter, unless that has a letter. -/
def ReadsBack (target : CopyTarget) (delimiter : Char) (row : List (Option Text)) : Prop :=
  row ≠ [] ∧ ∀ value, some value ∈ row →
    if target.format = copyFormatCsv then value ≠ target.nullPrint
    else attributeOutText delimiter value ≠ target.nullPrint ∧ '\x0b' ∉ value ∧
      (delimiter ∈ value → (controlLetter delimiter).isSome)

section ReadBack

variable {target : CopyTarget} {delimiter : Char} {row : List (Option Text)}

theorem forall₂_mapIdx {α β γ : Type*} {R : β → γ → Prop} {f : Nat → α → β} {g : α → γ}
    {items : List α} (related : ∀ index, ∀ a ∈ items, R (f index a) (g a)) :
    Forall₂ R (items.mapIdx f) (items.map g) := by
  induction items generalizing f with
  | nil => exact .nil
  | cons a rest ih =>
    rw [mapIdx_cons, map_cons]
    exact .cons (related 0 a (.head _))
      (ih fun index b mem => related (index + 1) b (.tail _ mem))

theorem map_eq_self_iff {α : Type*} {f : α → α} {items : List α} :
    items.map f = items ↔ ∀ a ∈ items, f a = a := by
  induction items with
  | nil => simp
  | cons a rest ih => simp [ih]

section

variable (accepted : Accepted target delimiter)
include accepted

/-- The fields that the CSV parser returns of a written row. -/
theorem parseInputFields_csv (csv : target.format = copyFormatCsv) (forceQuote : Nat → Bool)
    (nonempty : row ≠ []) :
    target.parseInputFields (formatRow target delimiter forceQuote row) =
      .ok (row.map fun field => target.readField (field.getD target.nullPrint)) := by
  obtain ⟨apart, nullApart⟩ := accepted.quote csv
  have reads : Forall₂ (ReadsAs delimiter)
      (row.mapIdx fun index field =>
        fieldOut target delimiter (row.length == 1) (forceQuote index) field)
      (row.map fun field => field.getD target.nullPrint) := by
    refine forall₂_mapIdx fun index field _ => ?_
    cases field with
    | none =>
      intro fields rest _
      refine parseCsvFrom_plain target.nullPrint (fun ch mem => ⟨?_, ?_⟩) fields [] rest
      · rintro rfl
        exact accepted.nullApart mem
      · rintro rfl
        exact nullApart mem
    | some value =>
      rw [fieldOut, if_pos csv]
      exact attributeOutCsv_readsAs apart target.nullPrint _ _ value
  have line := parseCsvFrom_pieces reads (by simpa using nonempty) []
  unfold CopyTarget.parseInputFields parseCopyCsvFields formatRow delimiterChar
  rw [if_pos csv, accepted.single, headD_cons, line]
  simp [Except.map]

/-- The fields that the text parser returns, where the line is cut as it was joined. -/
theorem parseInputFields_text (text : target.format = copyFormatText) (forceQuote : Nat → Bool) :
    target.parseInputFields (formatRow target delimiter forceQuote row) =
      .ok ((([delimiter].intercalate (row.map (fieldOut target delimiter false false))).splitOn
        delimiter).map target.readField) := by
  have notCsv : target.format ≠ copyFormatCsv := by
    rw [text]
    decide
  have pieces : (row.mapIdx fun index field =>
      fieldOut target delimiter (row.length == 1) (forceQuote index) field) =
        row.map (fieldOut target delimiter false false) := by
    have unquoted : ∀ single force field, fieldOut target delimiter single force field =
        fieldOut target delimiter false false field := by
      intro single force field
      cases field <;> simp [fieldOut, notCsv]
    refine ext_getElem (by simp) fun index _ _ => ?_
    rw [getElem_mapIdx, getElem_map, unquoted]
  unfold CopyTarget.parseInputFields splitCopyTextFields formatRow delimiterChar
  rw [if_neg notCsv, if_pos text, pieces, accepted.single, headD_cons]
  rfl

/-- A written text field is read back by itself under the stated conditions. -/
theorem readField_text (text : target.format = copyFormatText) (field : Option Text) :
    target.readField (fieldOut target delimiter false false field) = field ↔
      ∀ value, field = some value →
        attributeOutText delimiter value ≠ target.nullPrint ∧ '\x0b' ∉ value := by
  have notCsv : target.format ≠ copyFormatCsv := by
    rw [text]
    decide
  cases field with
  | none => simp [fieldOut, CopyTarget.readField]
  | some value =>
    rw [fieldOut, if_neg notCsv, CopyTarget.readField]
    by_cases null : attributeOutText delimiter value = target.nullPrint
    · simp [null]
    · rw [if_neg null, if_pos text, decode_attributeOutText (accepted.plain notCsv)]
      simp only [Option.some.injEq, map_eq_self_iff, ite_eq_right_iff, null, ne_eq,
        not_false_eq_true, true_and, forall_eq']
      constructor
      · intro fixed mem
        exact absurd (fixed _ mem rfl) (by decide)
      · rintro absent ch mem rfl
        exact absurd mem absent

theorem delimiter_mem_fieldOut (text : target.format = copyFormatText) :
    (∀ piece ∈ row.map (fieldOut target delimiter false false), delimiter ∉ piece) ↔
      ∀ value, some value ∈ row → delimiter ∈ value → (controlLetter delimiter).isSome := by
  have notCsv : target.format ≠ copyFormatCsv := by
    rw [text]
    decide
  have each : ∀ field, delimiter ∉ fieldOut target delimiter false false field ↔
      ∀ value, field = some value → delimiter ∈ value → (controlLetter delimiter).isSome := by
    intro field
    cases field with
    | none => simpa [fieldOut] using accepted.nullApart
    | some value =>
      rw [fieldOut, if_neg notCsv, delimiter_mem_attributeOutText (accepted.plain notCsv)]
      simp [Option.isSome_iff_ne_none]
  simp only [forall_mem_map, each]
  exact ⟨fun plain value mem => plain (some value) mem value rfl,
    fun plain field mem value same => plain value (same ▸ mem)⟩

end

/-- The text parser reads a row back if and only if the line is cut as it was
    joined and every field is read back. -/
theorem parseInputFields_text_iff (nonempty : row ≠ []) :
    (([delimiter].intercalate (row.map (fieldOut target delimiter false false))).splitOn
        delimiter).map target.readField = row ↔
      (∀ piece ∈ row.map (fieldOut target delimiter false false), delimiter ∉ piece) ∧
        ∀ field ∈ row, target.readField (fieldOut target delimiter false false field) = field := by
  have pieces : row.map (fieldOut target delimiter false false) ≠ [] := by simpa using nonempty
  have whole : ∀ plain : ∀ piece ∈ row.map (fieldOut target delimiter false false), delimiter ∉ piece,
      (([delimiter].intercalate (row.map (fieldOut target delimiter false false))).splitOn
        delimiter).map target.readField = row ↔
          ∀ field ∈ row, target.readField (fieldOut target delimiter false false field) = field := by
    intro plain
    rw [splitOn_intercalate delimiter plain pieces, map_map, map_eq_self_iff]
    rfl
  constructor
  · intro same
    have plain := (splitOn_length_iff pieces).mp (by simpa using congrArg length same)
    exact ⟨plain, (whole plain).mp same⟩
  · rintro ⟨plain, fields⟩
    exact (whole plain).mpr fields

/-- A written row is read back exactly where the conditions hold. -/
theorem parseInputFields_formatRow (accepted : Accepted target delimiter)
    (forceQuote : Nat → Bool) (row : List (Option Text)) :
    target.parseInputFields (formatRow target delimiter forceQuote row) = .ok row ↔
      ReadsBack target delimiter row := by
  unfold ReadsBack
  by_cases nonempty : row = []
  · -- The empty line is a line of one field.
    subst nonempty
    rcases accepted.format with text | csv
    · simp [parseInputFields_text accepted text, intercalate]
    · simp [CopyTarget.parseInputFields, formatRow, parseCopyCsvFields, parseCsvFrom, csv,
        Except.map, intercalate]
  rcases accepted.format with text | csv
  · have notCsv : target.format ≠ copyFormatCsv := by
      rw [text]
      decide
    rw [parseInputFields_text accepted text, Except.ok.injEq,
      parseInputFields_text_iff nonempty, delimiter_mem_fieldOut accepted text]
    simp only [readField_text accepted text, notCsv, if_false, ne_eq, nonempty, not_false_eq_true,
      true_and]
    constructor
    · rintro ⟨cut, fields⟩ value member
      obtain ⟨apart, tab⟩ := fields _ member value rfl
      exact ⟨apart, tab, cut value member⟩
    · intro values
      refine ⟨fun value member => (values value member).2.2, ?_⟩
      rintro field member value rfl
      exact ⟨(values value member).1, (values value member).2.1⟩
  · have notText : target.format ≠ copyFormatText := by
      rw [csv]
      decide
    rw [parseInputFields_csv accepted csv forceQuote nonempty, Except.ok.injEq, map_eq_self_iff]
    simp only [ne_eq, nonempty, not_false_eq_true, true_and, csv, if_true]
    constructor
    · intro fields value member null
      have read := fields _ member
      simp [CopyTarget.readField, null] at read
    · intro values field member
      cases field with
      | none => simp [CopyTarget.readField]
      | some value => simp [CopyTarget.readField, values value member, notText]

end ReadBack

/-- The options of text format by default. -/
def textTarget : CopyTarget := ⟨copyFormatText, ['\t'], ['\\', 'N']⟩

theorem textTarget_accepted : Accepted textTarget '\t' where
  format := .inl rfl
  single := rfl
  oneByte := by decide
  lineEnd := by decide
  nullLineEnd := by decide
  nullApart := by decide
  plain := fun _ => by decide
  quote := fun csv => absurd csv (by decide)

/-- A tab, a backslash and a null, written and read back. -/
theorem parseInputFields_formatRow_tab :
    textTarget.parseInputFields (formatRow textTarget '\t' (fun _ => false)
      [some ['a', '\t'], none, some ['\\', 'N']]) =
        .ok [some ['a', '\t'], none, some ['\\', 'N']] := by
  refine (parseInputFields_formatRow textTarget_accepted _ _).mpr ⟨by simp, fun value member => ?_⟩
  have values : value = ['a', '\t'] ∨ value = ['\\', 'N'] := by simpa using member
  rcases values with rfl | rfl <;> decide

/-- The options of CSV format by default. -/
def csvTarget : CopyTarget := ⟨copyFormatCsv, [','], []⟩

theorem csvTarget_accepted : Accepted csvTarget ',' where
  format := .inr rfl
  single := rfl
  oneByte := by decide
  lineEnd := by decide
  nullLineEnd := by decide
  nullApart := by decide
  plain := fun notCsv => absurd rfl notCsv
  quote := fun _ => by decide

/-- An empty string is written as two quotes and read as a null. -/
theorem parseInputFields_empty_string : Accepted csvTarget ',' ∧
    formatRow csvTarget ',' (fun _ => false) [some []] = ['"', '"'] ∧
    csvTarget.parseInputFields ['"', '"'] = .ok [none] :=
  ⟨csvTarget_accepted, by decide, by decide⟩

end FastPg.Copy
