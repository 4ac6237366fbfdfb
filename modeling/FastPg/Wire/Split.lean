import Mathlib.Data.List.TakeWhile
import Mathlib.Data.List.Infix

/-! # Cutting a query into statements

A simple query may hold several statements. They are cut apart before any of
them is parsed, by one pass over the text that keeps track of quotes, comments,
parentheses and the bodies of SQL functions. Characters outside ASCII only ever
pass through, so the text is a list of characters here and not of bytes.
-/

namespace FastPg.Wire

open List Option

abbrev Text := List Char

def isIdentifierStart (c : Char) : Bool := c.isAlpha || c = '_'

def isIdentifierContinue (c : Char) : Bool := c.isAlphanum || c = '_' || c = '$'

/-- `eq_ignore_ascii_case` with a keyword in lower case. -/
def keywordEq (word : Text) (keyword : String) : Bool := word.map Char.toLower = keyword.toList

def dollarTagEnd (index : Nat) : Text → Option Nat
  | [] => none
  | c :: rest =>
    if c = '$' then some (index + 1)
    else if c.isAlphanum || c = '_' then dollarTagEnd (index + 1) rest
    else none

/-- The length of the dollar quote that a text starts with. -/
def dollarQuoteEnd : Text → Option Nat
  | [] => none
  | c :: rest => if c = '$' then dollarTagEnd 1 rest else none

/-- White space as `str::trim` knows it. -/
def isWhitespace (c : Char) : Bool :=
  (9 ≤ c.toNat ∧ c.toNat ≤ 13) ∨ c.toNat ∈ [0x20, 0x85, 0xA0, 0x1680, 0x2028, 0x2029, 0x202F,
    0x205F, 0x3000] ∨ (0x2000 ≤ c.toNat ∧ c.toNat ≤ 0x200A)

def isBlank (text : Text) : Bool := text.all isWhitespace

structure SplitState where
  singleQuoted : Bool := false
  doubleQuoted : Bool := false
  lineComment : Bool := false
  blockCommentDepth : Nat := 0
  parenDepth : Nat := 0
  pendingBegin : Bool := false
  atomicBodyDepth : Nat := 0
  caseDepth : Nat := 0
  dollarQuote : Option Text := none
  deriving DecidableEq, Repr

/-- What one round of the loop does: the state after it, how many characters it
    takes besides the first, and whether a statement ends there. -/
structure Advance where
  state : SplitState
  more : Nat := 0
  ends : Bool := false
  deriving DecidableEq, Repr

namespace SplitState

def takeWord (state : SplitState) (word : Text) : SplitState :=
  if keywordEq word "begin" then { state with pendingBegin := true }
  else if state.pendingBegin && keywordEq word "atomic" then
    { state with atomicBodyDepth := state.atomicBodyDepth + 1, pendingBegin := false }
  else if 0 < state.atomicBodyDepth then
    if keywordEq word "case" then
      { state with caseDepth := state.caseDepth + 1, pendingBegin := false }
    else if keywordEq word "end" then
      if 0 < state.caseDepth then
        { state with caseDepth := state.caseDepth - 1, pendingBegin := false }
      else { state with atomicBodyDepth := state.atomicBodyDepth - 1, pendingBegin := false }
    else { state with pendingBegin := false }
  else { state with pendingBegin := false }

/-- The round at a character outside quotes and comments. -/
def advancePlain (state : SplitState) (c : Char) (rest : Text) : Advance :=
  if c = '\'' then { state := { state with singleQuoted := true, pendingBegin := false } }
  else if c = '"' then { state := { state with doubleQuoted := true, pendingBegin := false } }
  else if c = '-' ∧ rest.head? = some '-' then { state := { state with lineComment := true }, more := 1 }
  else if c = '/' ∧ rest.head? = some '*' then
    { state := { state with blockCommentDepth := 1 }, more := 1 }
  else if c = '(' then
    { state := { state with parenDepth := state.parenDepth + 1, pendingBegin := false } }
  else if c = ')' then
    { state := { state with parenDepth := state.parenDepth - 1, pendingBegin := false } }
  else if c = '$' then
    match dollarQuoteEnd (c :: rest) with
    | some length =>
      { state := { state with dollarQuote := some ((c :: rest).take length), pendingBegin := false }
        more := length - 1 }
    | none => { state }
  else if c = ';' ∧ state.parenDepth = 0 ∧ state.atomicBodyDepth = 0 then { state, ends := true }
  else if c = ';' then { state := { state with pendingBegin := false } }
  else if isIdentifierStart c then
    let continued := rest.takeWhile isIdentifierContinue
    { state := state.takeWord (c :: continued), more := continued.length }
  else { state }

def advance (state : SplitState) (c : Char) (rest : Text) : Advance :=
  match state.dollarQuote with
  | some tag =>
    if tag.isPrefixOf (c :: rest) then
      { state := { state with dollarQuote := none }, more := tag.length - 1 }
    else { state }
  | none =>
    if state.lineComment then
      if c = '\n' then { state := { state with lineComment := false } } else { state }
    else if 0 < state.blockCommentDepth then
      if c = '/' ∧ rest.head? = some '*' then
        { state := { state with blockCommentDepth := state.blockCommentDepth + 1 }, more := 1 }
      else if c = '*' ∧ rest.head? = some '/' then
        { state := { state with blockCommentDepth := state.blockCommentDepth - 1 }, more := 1 }
      else { state }
    else if state.singleQuoted then
      if c = '\'' then
        if rest.head? = some '\'' then { state, more := 1 }
        else { state := { state with singleQuoted := false } }
      else { state }
    else if state.doubleQuoted then
      if c = '"' then
        if rest.head? = some '"' then { state, more := 1 }
        else { state := { state with doubleQuoted := false } }
      else { state }
    else state.advancePlain c rest

/-- The loop: `piece` is the statement so far, `more` how many characters belong
    to the last round yet. -/
def splitFrom (state : SplitState) : Nat → Text → Text → List Text
  | _, piece, [] => if isBlank piece then [] else [piece]
  | more + 1, piece, c :: rest => state.splitFrom more (piece ++ [c]) rest
  | 0, piece, c :: rest =>
    let round := state.advance c rest
    if round.ends then
      let statements := round.state.splitFrom round.more [] rest
      if isBlank (piece ++ [c]) then statements else (piece ++ [c]) :: statements
    else round.state.splitFrom round.more (piece ++ [c]) rest

end SplitState

def splitSimpleQueryStatements (query : Text) : List Text := SplitState.splitFrom {} 0 [] query

/-- The splitter passes over a text and comes from one state to another. -/
def Reads (state after : SplitState) (text rest : Text) : Prop :=
  ∀ piece, state.splitFrom 0 piece (text ++ rest) = after.splitFrom 0 (piece ++ text) rest

theorem Reads.append {state middle after : SplitState} {first second rest : Text}
    (readsFirst : Reads state middle first (second ++ rest)) (readsSecond : Reads middle after second rest) :
    Reads state after (first ++ second) rest := by
  intro piece
  rw [append_assoc, readsFirst, readsSecond, append_assoc]

/-! ## Rounds -/

namespace SplitState

variable {rest : Text} {state : SplitState} {c : Char}

theorem splitFrom_round (goesOn : (state.advance c rest).ends = false) (piece : Text) :
    state.splitFrom 0 piece (c :: rest) =
      (state.advance c rest).state.splitFrom (state.advance c rest).more (piece ++ [c]) rest := by
  rw [splitFrom]
  simp only [goesOn, Bool.false_eq_true, if_false]

/-- Characters that belong to a round are passed over. -/
theorem splitFrom_more (state : SplitState) (rest : Text) : ∀ (passed piece : Text),
    state.splitFrom passed.length piece (passed ++ rest) =
      state.splitFrom 0 (piece ++ passed) rest := by
  intro passed
  induction passed with
  | nil => exact fun piece => by rw [append_nil]; rfl
  | cons c passed ih =>
    intro piece
    rw [length_cons, cons_append, splitFrom, ih, append_assoc,
      singleton_append]

theorem advancePlain_ends (ends : (state.advancePlain c rest).ends = true) : c = ';' := by
  unfold advancePlain at ends
  by_contra other
  simp only [other, false_and, if_false] at ends
  repeat' split at ends
  all_goals simp at ends

/-- A statement only ends at a semicolon. -/
theorem advance_ends (ends : (state.advance c rest).ends = true) : c = ';' := by
  unfold advance at ends
  repeat' split at ends
  all_goals first
    | exact advancePlain_ends ends
    | simp at ends

/-- Nothing is lost but white space at the end. -/
theorem splitFrom_flatten (text : Text) : ∀ (state : SplitState) (more : Nat) (piece : Text),
    ∃ blank, isBlank blank = true ∧
      (state.splitFrom more piece text).flatten ++ blank = piece ++ text := by
  induction text with
  | nil =>
    intro state more piece
    rw [splitFrom]
    by_cases blank : isBlank piece = true
    · exact ⟨piece, blank, by simp [blank]⟩
    · exact ⟨[], rfl, by simp [blank]⟩
  | cons c rest ih =>
    intro state more piece
    cases more with
    | succ more =>
      obtain ⟨blank, isBlank, whole⟩ := ih state more (piece ++ [c])
      exact ⟨blank, isBlank, by rw [splitFrom, whole, append_assoc]; rfl⟩
    | zero =>
      rw [splitFrom]
      dsimp only
      split
      · obtain ⟨blank, blankEnd, whole⟩ := ih (state.advance c rest).state
          (state.advance c rest).more []
        rename_i ends
        have semicolon : c = ';' := advance_ends ends
        have notBlank : isBlank (piece ++ [c]) = false := by
          rw [semicolon, isBlank, all_append]
          simp [isWhitespace]
        refine ⟨blank, blankEnd, ?_⟩
        rw [notBlank]
        simp [append_assoc, whole]
      · obtain ⟨blank, isBlank, whole⟩ := ih (state.advance c rest).state
          (state.advance c rest).more (piece ++ [c])
        exact ⟨blank, isBlank, by rw [whole, append_assoc]; rfl⟩

/-- A state outside quotes and comments. -/
def outside (parens bodies cases : Nat) (pending : Bool) : SplitState :=
  { parenDepth := parens, atomicBodyDepth := bodies, caseDepth := cases, pendingBegin := pending }

/-- Outside quotes and comments, whatever is open. -/
def Plain (state : SplitState) : Prop :=
  ∃ parens bodies cases pending, state = outside parens bodies cases pending

theorem outside_plain {parens bodies cases : Nat} {pending : Bool} :
    (outside parens bodies cases pending).Plain := ⟨_, _, _, _, rfl⟩

section Outside

variable {state middle after : SplitState} {text rest body : Text} {c d : Char}

/-- A round over a character and some that belong to it. -/
theorem reads_round {passed : Text}
    (round : state.advance c (passed ++ rest) = { state := after, more := passed.length }) :
    Reads state after (c :: passed) rest := by
  intro piece
  rw [cons_append, splitFrom_round (by rw [round]), round]
  exact (after.splitFrom_more rest passed (piece ++ [c])).trans (by rw [append_assoc]; rfl)

theorem reads_cons (round : state.advance c (text ++ rest) = { state := middle })
    (reads : Reads middle after text rest) : Reads state after (c :: text) rest :=
  @Reads.append _ _ _ [c] _ _ (reads_round round) reads

theorem reads_cons_cons
    (round : state.advance c (d :: (text ++ rest)) = { state := middle, more := 1 })
    (reads : Reads middle after text rest) : Reads state after (c :: d :: text) rest :=
  @Reads.append _ _ _ [c, d] _ _ (reads_round round) reads

/-- Every quote in the text stands twice. -/
def doubled (quote : Char) : Text → Bool
  | [] => true
  | [c] => c ≠ quote
  | c :: d :: rest =>
    if c = quote then d = quote && doubled quote rest else doubled quote (d :: rest)

/-- A quoted text is read to its closing quote. -/
theorem reads_quoted {inside : SplitState} {quote : Char}
    (other : ∀ c rest, c ≠ quote → inside.advance c rest = { state := inside })
    (twice : ∀ rest, rest.head? = some quote →
      inside.advance quote rest = { state := inside, more := 1 })
    (closing : ∀ rest, rest.head? ≠ some quote → inside.advance quote rest = { state := after })
    (ends : rest.head? ≠ some quote) (body : Text) :
    doubled quote body = true → Reads inside after (body ++ [quote]) rest := by
  induction body using doubled.induct quote with
  | case1 => exact fun _ => reads_round (closing rest ends)
  | case2 c =>
    intro single
    exact reads_cons (other c _ (of_decide_eq_true single)) (reads_round (closing rest ends))
  | case3 d body ih =>
    intro pairs
    rw [doubled, if_pos rfl, Bool.and_eq_true, decide_eq_true_eq] at pairs
    rw [pairs.1]
    exact reads_cons_cons (twice _ rfl) (ih pairs.2)
  | case4 c d body notQuote ih =>
    intro pairs
    rw [doubled, if_neg notQuote] at pairs
    exact reads_cons (other c _ notQuote) (ih pairs)

variable (plain : state.Plain)
include plain

theorem advance_plain : state.advance c rest = state.advancePlain c rest := by
  obtain ⟨_, _, _, _, rfl⟩ := plain
  rfl

theorem reads_string (pairs : doubled '\'' body = true) (ends : rest.head? ≠ some '\'') :
    Reads state { state with pendingBegin := false } ('\'' :: (body ++ ['\''])) rest := by
  obtain ⟨_, _, _, _, rfl⟩ := plain
  refine reads_cons rfl (reads_quoted ?_ ?_ ?_ ends body pairs) <;> intros <;>
    simp_all [advance, outside]

theorem reads_quotedName (pairs : doubled '"' body = true) (ends : rest.head? ≠ some '"') :
    Reads state { state with pendingBegin := false } ('"' :: (body ++ ['"'])) rest := by
  obtain ⟨_, _, _, _, rfl⟩ := plain
  refine reads_cons rfl (reads_quoted ?_ ?_ ?_ ends body pairs) <;> intros <;>
    simp_all [advance, outside]

/-- The delimiter does not begin inside the text that stands before it. -/
def noneBefore (delimiter : Text) : Text → Bool
  | [] => true
  | c :: body => !delimiter.isPrefixOf (c :: (body ++ delimiter)) && noneBefore delimiter body

/-- A dollar-quoted text is read to its closing delimiter. -/
theorem reads_dollarBody {delimiterTail : Text} (rest body : Text) :
    noneBefore (d :: delimiterTail) body = true →
      Reads { state with dollarQuote := some (d :: delimiterTail) } state
        (body ++ d :: delimiterTail) rest := by
  obtain ⟨_, _, _, _, rfl⟩ := plain
  induction body with
  | nil =>
    have atDelimiter : (d :: delimiterTail).isPrefixOf (d :: (delimiterTail ++ rest)) = true :=
      isPrefixOf_iff_prefix.mpr (prefix_append (d :: delimiterTail) rest)
    refine fun _ => reads_round ?_
    simp only [advance, atDelimiter, if_true]
    rfl
  | cons c body ih =>
    intro none
    rw [noneBefore, Bool.and_eq_true, Bool.not_eq_true'] at none
    refine reads_cons ?_ (ih none.2)
    have notHere : (d :: delimiterTail).isPrefixOf
        (c :: (body ++ d :: delimiterTail ++ rest)) = false := by
      rw [Bool.eq_false_iff]
      intro here
      have short : (d :: delimiterTail).length ≤ (c :: (body ++ d :: delimiterTail)).length := by
        simp
        omega
      have within : c :: (body ++ d :: delimiterTail) <+:
          c :: (body ++ d :: delimiterTail ++ rest) := ⟨rest, by simp⟩
      have found := prefix_of_prefix_length_le ( isPrefixOf_iff_prefix.mp here) within short
      rw [ isPrefixOf_iff_prefix.mpr found] at none
      exact absurd none.1 (by decide)
    exact if_neg (Bool.eq_false_iff.mp notHere)

/-! ## Comments -/

/-- The text ends a comment of some depth at its end, and not before. -/
def closesComment : Nat → Text → Bool
  | _, [] => false
  | _, [_] => false
  | depth, c :: d :: rest =>
    if c = '/' ∧ d = '*' then closesComment (depth + 1) rest
    else if c = '*' ∧ d = '/' then
      if depth ≤ 1 then rest = [] else closesComment (depth - 1) rest
    else closesComment depth (d :: rest)

theorem reads_commentBody (rest : Text) (depth : Nat) (body : Text) :
    closesComment depth body = true → 0 < depth →
      Reads { state with blockCommentDepth := depth } state body rest := by
  obtain ⟨_, _, _, _, rfl⟩ := plain
  induction depth, body using closesComment.induct with
  | case1 depth => exact fun closes => by cases closes
  | case2 depth c => exact fun closes => by cases closes
  | case3 depth c d body opens ih =>
    intro closes positive
    rw [closesComment, if_pos opens] at closes
    obtain ⟨rfl, rfl⟩ := opens
    exact reads_cons_cons (by simp [advance, outside, positive]) (ih closes (Nat.succ_pos _))
  | case4 depth c d body notOpening shuts shallow =>
    intro closes positive
    rw [closesComment, if_neg notOpening, if_pos shuts, if_pos shallow,
      decide_eq_true_eq] at closes
    obtain ⟨rfl, rfl⟩ := shuts
    obtain rfl : depth = 1 := by omega
    rw [closes]
    exact reads_round (by simp [advance, outside])
  | case5 depth c d body notOpening shuts deep ih =>
    intro closes positive
    rw [closesComment, if_neg notOpening, if_pos shuts, if_neg deep] at closes
    obtain ⟨rfl, rfl⟩ := shuts
    exact reads_cons_cons (by simp [advance, outside, positive]) (ih closes (by omega))
  | case6 depth c d body notOpening notShutting ih =>
    intro closes positive
    rw [closesComment, if_neg notOpening, if_neg notShutting] at closes
    exact reads_cons (by simp [advance, outside, positive, notOpening, notShutting])
      (ih closes positive)

theorem reads_blockComment (closes : closesComment 1 body = true) (rest : Text) :
    Reads state state ('/' :: '*' :: body) rest := by
  refine reads_cons_cons ?_ (reads_commentBody plain rest 1 body closes (by decide))
  obtain ⟨_, _, _, _, rfl⟩ := plain
  rfl

theorem reads_lineBody (rest body : Text) (oneLine : '\n' ∉ body) :
    Reads { state with lineComment := true } { state with lineComment := true } body rest := by
  induction body with
  | nil => exact fun piece => by rw [append_nil, nil_append]
  | cons c body ih =>
    have other : c ≠ '\n' := fun same => oneLine (same ▸ mem_cons_self)
    refine reads_cons ?_ (ih fun inBody => oneLine (.tail _ inBody))
    obtain ⟨_, _, _, _, rfl⟩ := plain
    simp [advance, outside, other]

/-- A line comment is read to its line feed. -/
theorem reads_lineComment (oneLine : '\n' ∉ body) (rest : Text) :
    Reads state state ('-' :: '-' :: (body ++ ['\n'])) rest := by
  refine reads_cons_cons ?_
    ((reads_lineBody plain _ body oneLine).append (reads_round ?_)) <;>
  · obtain ⟨_, _, _, _, rfl⟩ := plain
    rfl

/-- A line comment may be the last thing in a text. -/
theorem reads_lastComment (oneLine : '\n' ∉ body) : Reads state state ('-' :: '-' :: body) [] := by
  have read : Reads state { state with lineComment := true } ('-' :: '-' :: body) [] := by
    refine reads_cons_cons ?_ (reads_lineBody plain [] body oneLine)
    obtain ⟨_, _, _, _, rfl⟩ := plain
    rfl
  exact fun piece => (read piece).trans (by simp [splitFrom])

/-! ## Words and single characters -/

/-- A character that stands for itself. -/
theorem reads_char (ordinary : c ∉ ['\'', '"', '(', ')', '$', ';'])
    (notStart : isIdentifierStart c = false) (noLine : c = '-' → rest.head? ≠ some '-')
    (noBlock : c = '/' → rest.head? ≠ some '*') : Reads state state [c] rest := by
  refine reads_round ?_
  rw [advance_plain plain, advancePlain]
  simp only [mem_cons, not_mem_nil, or_false, not_or] at ordinary
  have notLine : ¬(c = '-' ∧ rest.head? = some '-') := fun both => noLine both.1 both.2
  have notBlock : ¬(c = '/' ∧ rest.head? = some '*') := fun both => noBlock both.1 both.2
  simp [ordinary, notLine, notBlock, notStart]

/-- A character of a class that has none of the splitter's own. -/
theorem reads_ordinary (inClass : Char → Bool) (isIn : inClass c = true)
    (others : ['\'', '"', '(', ')', '$', ';', '-', '/'].all (!inClass ·) = true)
    (notStart : isIdentifierStart c = false) : Reads state state [c] rest := by
  have other : ∀ d ∈ ['\'', '"', '(', ')', '$', ';', '-', '/'], c ≠ d := by
    rintro d own rfl
    simpa [isIn] using all_eq_true.mp others c own
  exact reads_char plain (fun own => other c (mem_append_left ['-', '/'] own) rfl) notStart
    (fun same => absurd same (other '-' (by decide)))
    (fun same => absurd same (other '/' (by decide)))

/-- A dollar sign that does not open a quote. -/
theorem reads_dollarSign (noQuote : dollarQuoteEnd ('$' :: rest) = none) :
    Reads state state ['$'] rest := by
  refine reads_round ?_
  rw [advance_plain plain, advancePlain]
  simp [noQuote]

/-- A semicolon inside parentheses or a body. -/
theorem reads_innerSemicolon (deep : ¬(state.parenDepth = 0 ∧ state.atomicBodyDepth = 0))
    (rest : Text) : Reads state { state with pendingBegin := false } [';'] rest := by
  refine reads_round ?_
  rw [advance_plain plain, advancePlain]
  simp [deep]

end Outside

/-- A letter of a name as the parser reads it: every character outside ASCII is one. -/
def nameStart (c : Char) : Bool := c.isAlpha || c = '_' || 128 ≤ c.toNat

def nameContinue (c : Char) : Bool := nameStart c || c.isDigit || c = '$'

theorem nameContinue_of_identifier (continues : isIdentifierContinue c = true) :
    nameContinue c = true := by
  simp only [isIdentifierContinue, nameContinue, nameStart, Char.isAlphanum, Bool.or_eq_true] at *
  tauto

/-- A text does not go on in a given way. -/
def stops (continues : Char → Bool) (rest : Text) : Bool := !rest.head?.any continues

theorem stops_mono {first second : Char → Bool}
    (within : ∀ c, first c = true → second c = true) (ends : stops second rest = true) :
    stops first rest = true := by
  cases rest with
  | nil => rfl
  | cons c rest =>
    simp only [stops, head?_cons, any_some, Bool.not_eq_true'] at *
    exact Bool.eq_false_iff.mpr fun isFirst => by rw [within c isFirst] at ends; cases ends

theorem takeWhile_append_stops {continues : Char → Bool} (ends : stops continues rest = true)
    (text : Text) : (text ++ rest).takeWhile continues = text.takeWhile continues := by
  induction text with
  | nil =>
    cases rest with
    | nil => rfl
    | cons c rest =>
      have other : continues c = false := by simpa [stops] using ends
      rw [nil_append, takeWhile_cons, other]
      rfl
  | cons c text ih => rw [cons_append, takeWhile_cons, takeWhile_cons, ih]

theorem dollarTagEnd_append (ends : stops isIdentifierContinue rest = true) (text : Text) :
    ∀ index, dollarTagEnd index text = none → dollarTagEnd index (text ++ rest) = none := by
  induction text with
  | nil =>
    intro index _
    cases rest with
    | nil => rfl
    | cons c rest =>
      have other : isIdentifierContinue c = false := by simpa [stops] using ends
      simp only [isIdentifierContinue, Bool.or_eq_false_iff, decide_eq_false_iff_not] at other
      simp [dollarTagEnd, other]
  | cons c text ih =>
    intro index none
    rw [dollarTagEnd] at none
    rw [cons_append, dollarTagEnd]
    split at none
    · cases none
    · rename_i notDollar
      rw [if_neg notDollar]
      split at none
      · rename_i inTag
        rw [if_pos inTag, ih _ none]
      · rename_i notInTag
        rw [if_neg notInTag]

/-- The words that the splitter finds in a name. -/
def wordParts : Nat → Text → List Text
  | _, [] => []
  | more + 1, _ :: rest => wordParts more rest
  | 0, c :: rest =>
    if isIdentifierStart c then
      let continued := rest.takeWhile isIdentifierContinue
      (c :: continued) :: wordParts continued.length rest
    else wordParts 0 rest

/-- The splitter finds no dollar quote in a name. -/
def noDollarQuote : Nat → Text → Bool
  | _, [] => true
  | more + 1, _ :: rest => noDollarQuote more rest
  | 0, c :: rest =>
    if isIdentifierStart c then
      noDollarQuote (rest.takeWhile isIdentifierContinue).length rest
    else dollarQuoteEnd (c :: rest) = none && noDollarQuote 0 rest

theorem Plain.takeWord (plain : state.Plain) (word : Text) : (state.takeWord word).Plain := by
  obtain ⟨_, _, _, _, rfl⟩ := plain
  unfold SplitState.takeWord
  repeat' split
  all_goals exact outside_plain

/-- The round at the beginning of a word. -/
theorem advance_word (plain : state.Plain) (starts : isIdentifierStart c = true) (rest : Text) :
    state.advance c rest =
      { state := state.takeWord (c :: rest.takeWhile isIdentifierContinue)
        more := (rest.takeWhile isIdentifierContinue).length } := by
  have other : ∀ d : Char, isIdentifierStart d = false → c ≠ d := by
    intro d notStart same
    rw [same, notStart] at starts
    cases starts
  rw [advance_plain plain, advancePlain]
  simp only [other '\'' (by decide), other '"' (by decide), other '-' (by decide),
    other '/' (by decide), other '(' (by decide), other ')' (by decide), other '$' (by decide),
    other ';' (by decide), false_and, if_false, starts, if_true]

/-- A name is read word by word. -/
theorem splitFrom_name (ends : stops isIdentifierContinue rest = true) (text : Text) :
    (∀ c ∈ text, nameContinue c = true) → ∀ {state : SplitState}, state.Plain →
      ∀ (more : Nat) (piece : Text), more ≤ text.length → noDollarQuote more text = true →
        state.splitFrom more piece (text ++ rest) =
          ((wordParts more text).foldl takeWord state).splitFrom 0 (piece ++ text) rest := by
  induction text with
  | nil =>
    intro _ state _ more piece short _
    rw [Nat.le_zero.mp short, nil_append, append_nil]
    rfl
  | cons c text ih =>
    intro name state plain more piece short noQuote
    have nameRest : ∀ d ∈ text, nameContinue d = true :=
      fun d inText => name d (.tail _ inText)
    have whole : piece ++ [c] ++ text = piece ++ c :: text := by rw [append_assoc]; rfl
    cases more with
    | succ more =>
      rw [cons_append, splitFrom, wordParts,
        ih nameRest plain more _ (Nat.le_of_succ_le_succ short) noQuote, whole]
    | zero =>
      rw [noDollarQuote] at noQuote
      rw [wordParts, cons_append]
      have inName : nameContinue c = true := name c (.head _)
      by_cases starts : isIdentifierStart c = true
      · rw [if_pos starts] at noQuote ⊢
        have round := advance_word plain starts (text ++ rest)
        rw [takeWhile_append_stops ends] at round
        rw [splitFrom_round (by rw [round]), round, foldl_cons,
          ih nameRest (plain.takeWord _) _ _ ( takeWhile_prefix _).length_le noQuote, whole]
      · rw [if_neg starts, Bool.and_eq_true, decide_eq_true_eq] at noQuote
        rw [if_neg starts, ← whole, ← ih nameRest plain 0 _ (Nat.zero_le _) noQuote.2]
        by_cases dollar : c = '$'
        · subst dollar
          exact reads_dollarSign plain (dollarTagEnd_append ends text 1 noQuote.1) piece
        · exact reads_ordinary plain (fun d => nameContinue d && d ≠ '$')
            (by simp [inName, dollar]) (by decide) (Bool.eq_false_iff.mpr starts) piece

end SplitState

end FastPg.Wire
