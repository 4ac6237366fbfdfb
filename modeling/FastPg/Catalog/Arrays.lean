import Mathlib
import FastPg.Wire.Split

/-! # Arrays in catalog columns

Array columns of the catalogs are read from the text that array output writes. The
reader goes through the text once, with the element read so far. At the comma after
a missing element it keeps the element's text, which then stands in front of the
next element.
-/

namespace FastPg.Catalog.Arrays

open List Option

open Wire (Text)

def null : Text := "NULL".toList

/-! ## The reader -/

structure Reader where
  elements : List (Option Text)
  current : Text
  quoted : Bool
  escaped : Bool
  sawQuote : Bool
  deriving DecidableEq, Repr

def Reader.step (reader : Reader) (ch : Char) : Reader :=
  if reader.escaped then { reader with current := reader.current ++ [ch], escaped := false }
  else if ch = '\\' ∧ reader.quoted then { reader with escaped := true }
  else if ch = '"' then { reader with quoted := !reader.quoted, sawQuote := true }
  else if ch = ',' ∧ !reader.quoted then
    if !reader.sawQuote ∧ reader.current = null then
      -- `current` is only taken in the other branch.
      { reader with elements := reader.elements ++ [none], sawQuote := false }
    else
      { reader with
        elements := reader.elements ++ [some reader.current], current := [], sawQuote := false }
  else { reader with current := reader.current ++ [ch] }

def parsePgArrayElements (value : Text) : Option (List (Option Text)) :=
  match value with
  | '{' :: rest =>
    if rest.getLast? = some '}' then
      let inner := rest.dropLast
      let reader := inner.foldl Reader.step ⟨[], [], false, false, false⟩
      if !reader.sawQuote ∧ reader.current = null then some (reader.elements ++ [none])
      else if inner = [] then some []
      else some (reader.elements ++ [some reader.current])
    else none
  | _ => none

/-! ## Array output -/

def scannerIsspace (ch : Char) : Bool := ch ∈ [' ', '\t', '\n', '\r', '\x0b', '\x0c']

def isSpecial (ch : Char) : Bool := ch ∈ ['"', '\\', '{', '}', ','] || scannerIsspace ch

def needquote (value : Text) : Bool :=
  value = [] || value.map Char.toUpper = null || value.any isSpecial

def escape (value : Text) : Text :=
  value.flatMap fun ch => if ch = '"' ∨ ch = '\\' then ['\\', ch] else [ch]

def elementOut : Option Text → Text
  | none => null
  | some value => if needquote value then '"' :: (escape value ++ ['"']) else value

def joined : List (Option Text) → Text
  | [] => []
  | [element] => elementOut element
  | element :: rest => elementOut element ++ ',' :: joined rest

/-- The text of a one-dimensional array. -/
def arrayOut (elements : List (Option Text)) : Text := '{' :: (joined elements ++ ['}'])

/-! ## What the reader makes of it -/

theorem foldl_escape (value : Text) (reader : Reader) (quoted : reader.quoted = true)
    (plain : reader.escaped = false) :
    (escape value).foldl Reader.step reader = { reader with current := reader.current ++ value } := by
  induction value generalizing reader with
  | nil => simp [escape]
  | cons ch rest ih =>
    rw [escape, flatMap_cons, ← escape, foldl_append]
    by_cases special : ch = '"' ∨ ch = '\\' <;> simp_all [Reader.step]

theorem foldl_plain (value : Text) (reader : Reader) (plain : value.any isSpecial = false)
    (unquoted : reader.quoted = false) (unescaped : reader.escaped = false) :
    value.foldl Reader.step reader = { reader with current := reader.current ++ value } := by
  induction value generalizing reader with
  | nil => simp
  | cons ch rest ih => simp_all [Reader.step, isSpecial]

/-- The text that an element adds to the current one. -/
def content (element : Option Text) : Text := element.getD null

/-- Whether an element is written in quotes. -/
def isQuoted (element : Option Text) : Bool := element.any needquote

variable (element : Option Text)

theorem foldl_elementOut (elements : List (Option Text)) (current : Text) :
    (elementOut element).foldl Reader.step ⟨elements, current, false, false, false⟩ =
      ⟨elements, current ++ content element, false, false, isQuoted element⟩ := by
  cases element with
  | none => exact foldl_plain null _ rfl rfl rfl
  | some value =>
    rw [elementOut, isQuoted, any_some, content, getD_some]
    split
    case isTrue quote => simp [Reader.step, foldl_escape, quote]
    case isFalse bare =>
      have plain : value.any isSpecial = false := by simp_all [needquote]
      simp [foldl_plain value _ plain, bare]

theorem elementOut_ne_nil : elementOut element ≠ [] := by
  cases element with
  | none => decide
  | some value =>
    rw [elementOut]
    split
    case isTrue => exact cons_ne_nil _ _
    case isFalse bare =>
      intro empty
      simp [empty, needquote] at bare

/-- What is read for an element when the text `carry` stands in front of it. -/
def readElement (carry : Text) (element : Option Text) : Option Text :=
  if carry = [] then element else some (carry ++ content element)

/-- What is read for the elements of an array. -/
def readElements (carry : Text) : List (Option Text) → List (Option Text)
  | [] => []
  | element :: rest =>
    readElement carry element ::
      readElements (if carry = [] ∧ element = none then null else []) rest

variable {carry : Text}

/-- An element is taken for a missing one if nothing stands in front of it and it is
    missing, since the text `NULL` is written in quotes. -/
theorem missing_iff {element : Option Text} (start : carry = [] ∨ carry = null) :
    ((!isQuoted element) = true ∧ carry ++ content element = null) ↔
      carry = [] ∧ element = none := by
  have upper : needquote null = true := by decide
  have empty : needquote [] = true := by decide
  cases element with
  | none => rcases start with rfl | rfl <;> simp [isQuoted, content, null]
  | some value =>
    rcases start with rfl | rfl <;> simp [isQuoted, content] <;> rintro bare rfl <;> simp_all

/-- The elements of a text that ends where the reader stands. -/
def Reader.ended (reader : Reader) : List (Option Text) :=
  if !reader.sawQuote ∧ reader.current = null then reader.elements ++ [none]
  else reader.elements ++ [some reader.current]

variable (elements : List (Option Text))

theorem ended_elementOut (before : List (Option Text)) (start : carry = [] ∨ carry = null) :
    Reader.ended ⟨before, carry ++ content element, false, false, isQuoted element⟩ =
      before ++ [readElement carry element] := by
  simp only [Reader.ended, missing_iff start, readElement]
  cases element <;> grind [content]

theorem step_comma (before : List (Option Text)) (start : carry = [] ∨ carry = null) :
    Reader.step ⟨before, carry ++ content element, false, false, isQuoted element⟩ ',' =
      ⟨before ++ [readElement carry element], if carry = [] ∧ element = none then null else [],
        false, false, false⟩ := by
  rw [← ended_elementOut element before start, Reader.ended]
  simp only [Reader.step, missing_iff start]
  cases element <;> grind [content]

theorem ended_joined (first : Option Text) (rest before : List (Option Text))
    (start : carry = [] ∨ carry = null) :
    ((joined (first :: rest)).foldl Reader.step ⟨before, carry, false, false, false⟩).ended =
      before ++ readElements carry (first :: rest) := by
  induction rest generalizing first before carry with
  | nil =>
    rw [joined, foldl_elementOut, ended_elementOut first before start]
    rfl
  | cons second rest ih =>
    have next : (if carry = [] ∧ first = none then null else []) = [] ∨
        (if carry = [] ∧ first = none then null else []) = null := by
      split <;> simp
    have unfolded : joined (first :: second :: rest) =
      elementOut first ++ ',' :: joined (second :: rest) := rfl
    rw [unfolded, foldl_append, foldl_elementOut, foldl_cons, step_comma first before start,
      ih second _ next, append_assoc]
    rfl

theorem parsePgArrayElements_arrayOut :
    parsePgArrayElements (arrayOut elements) = some (readElements [] elements) := by
  cases elements with
  | nil => rfl
  | cons first rest =>
    have nonempty : joined (first :: rest) ≠ [] := by
      cases rest with
      | nil => exact elementOut_ne_nil first
      | cons second rest => simp [joined]
    have read := ended_joined first rest [] (.inl rfl)
    simp only [parsePgArrayElements, arrayOut, getLast?_concat, dropLast_concat, if_true,
      nonempty, if_false]
    rw [← apply_ite some]
    exact congrArg some read

theorem readElements_eq_iff :
    readElements [] elements = elements ↔ ∀ element ∈ elements.dropLast, element ≠ none := by
  induction elements with
  | nil => simp [readElements]
  | cons first rest ih =>
    cases rest with
    | nil => simp [readElements, readElement]
    | cons second rest =>
      cases first with
      | some value => simpa [readElements, readElement] using ih
      | none =>
        -- The text of the first element makes the second one longer.
        have longer : some (null ++ content second) ≠ second := by
          intro same
          cases second with
          | none => cases same
          | some value => exact append_left_eq_self.not.mpr (by decide) (some.inj same)
        have filled : null ≠ [] := by decide
        simp [readElements, readElement, filled, longer]

/-- Reading the output of an array gives its elements back exactly if none but the
    last is missing. -/
theorem parsePgArrayElements_arrayOut_iff (elements : List (Option Text)) :
    parsePgArrayElements (arrayOut elements) = some elements ↔
      ∀ element ∈ elements.dropLast, element ≠ none := by
  rw [parsePgArrayElements_arrayOut, Option.some.injEq]
  exact readElements_eq_iff elements

theorem missing_element_read_into_next :
    arrayOut [none, some "a".toList] = "\x7bNULL,a\x7d".toList ∧
      parsePgArrayElements (arrayOut [none, some "a".toList]) = some [none, some "NULLa".toList] := by
  decide

end FastPg.Catalog.Arrays
