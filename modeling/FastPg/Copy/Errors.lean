import FastPg.Copy.Fields

/-! # Errors of COPY commands

An error of the backend reaches the connection as one string: a mark, then
message, detail, hint and context with a line end between each two. The other
side cuts the string at the first three line ends. A line end in one of the
first three fields is taken for the end of the field.
-/

namespace FastPg.Copy

/-- The fields of a backend error that are passed on. -/
structure PgCoreErrorInfo where
  message : Text
  detail : Option Text
  hint : Option Text
  context : Option Text
  deriving DecidableEq, Repr

/-- What the client is told. -/
structure ErrorInfo where
  severity : String
  code : String
  message : Text
  detail : Option Text := none
  hint : Option Text := none
  whereContext : Option Text := none
  deriving DecidableEq, Repr

def copyErrorFieldsMark : Text := "\x1ffastpg-copy-error-fields\n".toList

def copyErrorContextMark : Text := "\x1ffastpg-copy-context\n".toList

def pgcoreCopyError (error : PgCoreErrorInfo) : Text :=
  copyErrorFieldsMark ++ (error.message ++ '\n' :: (error.detail.getD [] ++
    '\n' :: (error.hint.getD [] ++ '\n' :: error.context.getD [])))

/-- `split_once`: the text before and after the first separator. -/
def splitOnce (separator : Char) : Text → Option (Text × Text)
  | [] => none
  | c :: rest =>
    if c = separator then some ([], rest)
    else (splitOnce separator rest).map fun (before, after) => (c :: before, after)

/-- `splitn`: at most so many parts; the last one is not cut. -/
def splitN (separator : Char) : Nat → Text → List Text
  | 0, _ => []
  | 1, text => [text]
  | n + 2, text =>
    match splitOnce separator text with
    | some (before, after) => before :: splitN separator (n + 1) after
    | none => [text]

def nonEmpty (part : Option Text) : Option Text := part.filter fun value => !value.isEmpty

/-- `copy_data_error`. -/
def copyDataError (message : Text) : ErrorInfo :=
  match message.dropPrefix? copyErrorFieldsMark with
  | some rest =>
    let parts := splitN '\n' 4 rest
    { severity := "ERROR", code := "22P04"
      message := parts[0]?.getD "COPY failed".toList
      detail := nonEmpty parts[1]?
      hint := nonEmpty parts[2]?
      whereContext := nonEmpty parts[3]? }
  | none =>
    let (message, context) := match message.dropPrefix? copyErrorContextMark with
      | some rest =>
        let parts := splitN '\n' 2 rest
        (parts[0]?.getD "COPY failed".toList, parts[1]?)
      | none =>
        match splitOnce '\n' message with
        | some (message, context) =>
          if "COPY ".toList <+: context then (message, some context) else (message, none)
        | none => (message, none)
    { severity := "ERROR", code := "22P04", message := message, whereContext := context }

/-! ## Cutting -/

variable (separator : Char)

theorem splitOnce_append (field rest : Text) :
    ∃ before after, splitOnce separator (field ++ separator :: rest) = some (before, after) ∧
      separator ∉ before ∧ (separator ∉ field → before = field ∧ after = rest) := by
  induction field with
  | nil => exact ⟨[], rest, by simp [splitOnce], by simp, fun _ => ⟨rfl, rfl⟩⟩
  | cons c field ih =>
    obtain ⟨before, after, cut, clean, whole⟩ := ih
    by_cases ends : c = separator
    · exact ⟨[], field ++ separator :: rest, by simp [splitOnce, ends], by simp, by simp [ends]⟩
    · refine ⟨c :: before, after, by simp [splitOnce, ends, cut], by simp [clean, Ne.symm ends],
        fun absent => ?_⟩
      obtain ⟨rfl, rfl⟩ := whole fun mem => absent (List.mem_cons_of_mem _ mem)
      exact ⟨rfl, rfl⟩

/-- The first part is the field exactly where the field has no separator, and
    the others are cut from the rest then. -/
theorem splitN_append (n : Nat) (field rest : Text) :
    ∃ before after, splitN separator (n + 2) (field ++ separator :: rest) =
        before :: splitN separator (n + 1) after ∧
      (before = field ↔ separator ∉ field) ∧ (separator ∉ field → after = rest) := by
  obtain ⟨before, after, cut, clean, whole⟩ := splitOnce_append separator field rest
  refine ⟨before, after, by rw [splitN, cut], ⟨?_, fun absent => (whole absent).1⟩,
    fun absent => (whole absent).2⟩
  rintro rfl
  exact clean

theorem nonEmpty_getD (part : Text) : (nonEmpty (some part)).getD [] = part := by
  cases part <;> simp [nonEmpty, Option.filter]

/-! ## What arrives -/

/-- The client is told the fields of the backend error; an absent field and an
    empty one are the same. -/
structure Tells (error : PgCoreErrorInfo) (told : ErrorInfo) : Prop where
  message : told.message = error.message
  detail : told.detail.getD [] = error.detail.getD []
  hint : told.hint.getD [] = error.hint.getD []
  context : told.whereContext.getD [] = error.context.getD []

/-- The fields arrive exactly if none of the first three has a line end. -/
theorem copyDataError_tells_iff (error : PgCoreErrorInfo) :
    Tells error (copyDataError (pgcoreCopyError error)) ↔
      '\n' ∉ error.message ∧ '\n' ∉ error.detail.getD [] ∧ '\n' ∉ error.hint.getD [] := by
  obtain ⟨message, after₁, cut₁, message_iff, rest₁⟩ := splitN_append '\n' 2 error.message
    (error.detail.getD [] ++ '\n' :: (error.hint.getD [] ++ '\n' :: error.context.getD []))
  have told : copyDataError (pgcoreCopyError error) =
      { severity := "ERROR", code := "22P04", message := message
        detail := nonEmpty (splitN '\n' 3 after₁)[0]?
        hint := nonEmpty (splitN '\n' 3 after₁)[1]?
        whereContext := nonEmpty (splitN '\n' 3 after₁)[2]? } := by
    have marked : (pgcoreCopyError error).dropPrefix? copyErrorFieldsMark = some _ :=
      List.dropPrefix?_append_of_beq _ (beq_self_eq_true _)
    rw [copyDataError, marked]
    dsimp only
    rw [cut₁]
    rfl
  rw [told]
  obtain ⟨detail, after₂, cut₂, detail_iff, rest₂⟩ := splitN_append '\n' 1 (error.detail.getD [])
    (error.hint.getD [] ++ '\n' :: error.context.getD [])
  obtain ⟨hint, after₃, cut₃, hint_iff, rest₃⟩ := splitN_append '\n' 0 (error.hint.getD [])
    (error.context.getD [])
  constructor
  · intro tells
    -- A field that arrives has no line end, so the next one starts where it should.
    have first := message_iff.mp tells.message
    have second := tells.detail
    have third := tells.hint
    rw [rest₁ first, cut₂] at second third
    have second := detail_iff.mp ((nonEmpty_getD detail).symm.trans second)
    rw [rest₂ second, cut₃] at third
    exact ⟨first, second, hint_iff.mp ((nonEmpty_getD hint).symm.trans third)⟩
  · rintro ⟨first, second, third⟩
    rw [rest₁ first, cut₂, rest₂ second, cut₃, rest₃ third, splitN]
    exact ⟨message_iff.mpr first, (nonEmpty_getD detail).trans (detail_iff.mpr second),
      (nonEmpty_getD hint).trans (hint_iff.mpr third), nonEmpty_getD _⟩

/-- A message of two lines loses the second to the detail. -/
theorem copyDataError_loses_line :
    ¬ Tells ⟨"a\nb".toList, none, none, none⟩
      (copyDataError (pgcoreCopyError ⟨"a\nb".toList, none, none, none⟩)) := by
  rintro ⟨message, -, -, -⟩
  revert message
  decide

end FastPg.Copy
