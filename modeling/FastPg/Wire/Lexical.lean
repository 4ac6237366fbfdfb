import Mathlib
import FastPg.Wire.Split

/-! # Statements as the parser sees them

The text of a query as the parser's lexer takes it apart, with the places marked
where a function body or a `CASE` inside one begins and ends. A statement ends at
a semicolon outside all parentheses and bodies. The splitter finds these ends in
every text that it reads as the lexer does.
-/

namespace FastPg.Wire

open SplitState

/-! ## Tokens -/

/-- How the line of a line comment ends. -/
inductive LineEnd where
  | feed
  | returnFeed
  /-- A carriage return alone, which ends a line for the lexer. -/
  | carriage
  /-- The text ends. -/
  | none
  deriving DecidableEq, Repr

def LineEnd.text : LineEnd → Text
  | .feed => ['\n']
  | .returnFeed => ['\r', '\n']
  | .carriage => ['\r']
  | .none => []

inductive Blank where
  | space (c : Char)
  | lineComment (body : Text) (ending : LineEnd)
  /-- `body` is what follows the opening, with the closing. -/
  | blockComment (body : Text)
  deriving DecidableEq, Repr

def Blank.text : Blank → Text
  | .space c => [c]
  | .lineComment body ending => '-' :: '-' :: (body ++ ending.text)
  | .blockComment body => '/' :: '*' :: body

def blanksText (blanks : List Blank) : Text := blanks.flatMap Blank.text

inductive Token where
  | blank (inner : Blank)
  | string (body : Text)
  | escapeString (letter : Char) (body : Text)
  /-- A later part of an escape string that goes on after a line end. -/
  | escapeContinued (body : Text)
  | quotedName (body : Text)
  | dollarString (tag body : Text)
  | word (text : Text)
  /-- Digits and the letters of a number that follow them. -/
  | number (text : Text)
  | parameter (digits : Text)
  | symbol (c : Char)
  | openParen
  | closeParen
  | semicolon
  /-- `BEGIN ATOMIC`, the beginning of a function body. -/
  | bodyStart (opening : Text) (gap : List Blank) (atomic : Text)
  | bodyEnd (text : Text)
  /-- `CASE` and its `END` inside a function body. -/
  | caseStart (text : Text)
  | caseEnd (text : Text)
  deriving DecidableEq, Repr

def dollarDelimiter (tag : Text) : Text := '$' :: (tag ++ ['$'])

def Token.text : Token → Text
  | .blank inner => inner.text
  | .string body | .escapeContinued body => '\'' :: (body ++ ['\''])
  | .escapeString letter body => letter :: '\'' :: (body ++ ['\''])
  | .quotedName body => '"' :: (body ++ ['"'])
  | .dollarString tag body => dollarDelimiter tag ++ (body ++ dollarDelimiter tag)
  | .word text | .number text | .bodyEnd text | .caseStart text | .caseEnd text => text
  | .parameter digits => '$' :: digits
  | .symbol c => [c]
  | .openParen => ['(']
  | .closeParen => [')']
  | .semicolon => [';']
  | .bodyStart opening gap atomic => opening ++ (blanksText gap ++ atomic)

def textOf (tokens : List Token) : Text := tokens.flatMap Token.text

/-! ## What the lexer takes for a token -/

def isSpace (c : Char) : Bool := c ∈ [' ', '\t', '\n', '\r', '\x0b', '\x0c']

def LineEnd.fits (rest : Text) : LineEnd → Bool
  | .feed | .returnFeed => true
  | .carriage => rest.head? ≠ some '\n'
  | .none => rest = []

/-- The lexer takes the blank before this rest of the text. -/
def Blank.fits (rest : Text) : Blank → Bool
  | .space c => isSpace c
  | .lineComment body ending => body.all (fun c => c ≠ '\n' && c ≠ '\r') && ending.fits rest
  | .blockComment body => closesComment 1 body

def blanksFit (rest : Text) : List Blank → Bool
  | [] => true
  | blank :: more => blank.fits (blanksText more ++ rest) && blanksFit rest more

/-- The inside of an escape string: a backslash and any character, a quote
    twice, or another character. -/
def escapeBody : Text → Bool
  | [] => true
  | [c] => c ≠ '\\' && c ≠ '\''
  | c :: d :: rest =>
    if c = '\\' then escapeBody rest
    else if c = '\'' then d = '\'' && escapeBody rest
    else escapeBody (d :: rest)

def tagContinue (c : Char) : Bool := nameStart c || c.isDigit

def isTag (tag : Text) : Bool := tag.all tagContinue && !tag.head?.any Char.isDigit

/-- A dollar quote opens after a dollar sign. -/
def opensDollar (rest : Text) : Bool :=
  isTag (rest.takeWhile tagContinue) &&
    (rest.drop (rest.takeWhile tagContinue).length).head? = some '$'

def isName (text : Text) : Bool := text.head?.any nameStart && text.all nameContinue

/-- The letters of numbers: hexadecimal digits, the marks of a base and of an
    exponent, and the underscore. -/
def isNumberChar (c : Char) : Bool :=
  c.isDigit || c.toLower ∈ ['a', 'b', 'c', 'd', 'e', 'f', 'x', 'o', '_']

def isKeyword (keyword : String) (rest text : Text) : Bool :=
  keywordEq text keyword && stops nameContinue rest

/-- The lexer takes the token before this rest of the text. -/
def Token.fits (rest : Text) : Token → Bool
  | .blank inner => inner.fits rest
  | .string body => doubled '\'' body && rest.head? ≠ some '\''
  | .escapeString letter body =>
    letter.toLower = 'e' && escapeBody body && rest.head? ≠ some '\''
  | .escapeContinued body => escapeBody body && rest.head? ≠ some '\''
  | .quotedName body => body ≠ [] && doubled '"' body && rest.head? ≠ some '"'
  | .dollarString tag body => isTag tag && noneBefore (dollarDelimiter tag) body
  | .word text =>
    isName text && stops nameContinue rest &&
      !(text.map Char.toLower = ['e'] && rest.head? = some '\'')
  | .number text =>
    text.head?.any Char.isDigit && text.all isNumberChar && stops tagContinue rest
  | .parameter digits => digits ≠ [] && digits.all Char.isDigit && stops tagContinue rest
  | .symbol c =>
    !(isSpace c || tagContinue c || c ∈ ['\'', '"', '(', ')', ';']) &&
      (c ≠ '-' || rest.head? ≠ some '-') && (c ≠ '/' || rest.head? ≠ some '*') &&
      (c ≠ '$' || (!opensDollar rest && stops Char.isDigit rest))
  | .openParen | .closeParen | .semicolon => true
  | .bodyStart opening gap atomic =>
    keywordEq opening "begin" && gap ≠ [] && blanksFit (atomic ++ rest) gap &&
      isKeyword "atomic" rest atomic
  | .bodyEnd text | .caseEnd text => isKeyword "end" rest text
  | .caseStart text => isKeyword "case" rest text

/-! ## Nesting and statements -/

inductive Frame where
  | paren
  | body
  | caseOf
  deriving DecidableEq, Repr

/-- What is open after a token, or none where the token does not fit there. -/
def Token.nest (stack : List Frame) : Token → Option (List Frame)
  | .openParen => some (.paren :: stack)
  | .bodyStart .. => some (.body :: stack)
  | .caseStart _ => if Frame.body ∈ stack then some (.caseOf :: stack) else none
  | .closeParen => if stack.head? = some .paren then some stack.tail else none
  | .bodyEnd _ => if stack.head? = some .body then some stack.tail else none
  | .caseEnd _ => if stack.head? = some .caseOf then some stack.tail else none
  | _ => some stack

/-- The lexer takes the text apart like this, and what is opened is closed. -/
def wellFormed (stack : List Frame) : List Token → Bool
  | [] => stack = []
  | token :: rest =>
    token.fits (textOf rest) &&
      match token.nest stack with
      | some after => wellFormed after rest
      | none => false

/-- The statements, each with its semicolon. -/
def statementsFrom (stack : List Frame) (piece : Text) : List Token → List Text
  | [] => if isBlank piece then [] else [piece]
  | token :: rest =>
    if token = .semicolon ∧ stack = [] then (piece ++ token.text) :: statementsFrom [] [] rest
    else statementsFrom ((token.nest stack).getD []) (piece ++ token.text) rest

def statements (tokens : List Token) : List Text := statementsFrom [] [] tokens

/-! ## What the splitter reads as the lexer does -/

/-- The inside of an escape string has no quote after a backslash. -/
def noEscapedQuote : Text → Bool
  | [] => true
  | [_] => true
  | c :: d :: rest =>
    if c = '\\' then d ≠ '\'' && noEscapedQuote rest
    else if c = '\'' then noEscapedQuote rest
    else noEscapedQuote (d :: rest)

def Blank.readable (rest : Text) : Blank → Bool
  | .lineComment _ .carriage => rest = []
  | _ => true

/-- The splitter sees the token end where it does: no quote is escaped by a
    backslash, no line comment ends at a carriage return alone, the tag of a
    dollar quote is ASCII, and no dollar sign comes where only the lexer
    knows that a name, a number or a parameter ends. -/
def Token.readable (rest : Text) : Token → Bool
  | .blank inner => inner.readable rest
  | .escapeString _ body | .escapeContinued body => noEscapedQuote body
  | .dollarString tag _ => tag.all fun c => c.isAlphanum || c = '_'
  | .word text => noDollarQuote 0 text
  | .number text => text.all Char.isDigit || rest.head? ≠ some '$'
  | .parameter _ => rest.head? ≠ some '$'
  | .bodyStart _ gap atomic => gap.all (Blank.readable atomic)
  | _ => true

def inBody (stack : List Frame) : Bool := stack.any (· ≠ .paren)

/-- Words that the splitter does not take for the keywords of a body: no
    `ATOMIC` after `BEGIN`, and no `CASE` or `END` inside a body. -/
def plainParts (inside : Bool) : Bool → List Text → Bool
  | _, [] => true
  | pending, part :: rest =>
    !(pending && keywordEq part "atomic") &&
      !(inside && (keywordEq part "case" || keywordEq part "end")) &&
      plainParts inside (keywordEq part "begin") rest

def pendingAfterParts (pending : Bool) (parts : List Text) : Bool :=
  parts.foldl (fun _ part => keywordEq part "begin") pending

/-- A `BEGIN` still counts after a token: blanks, symbols, numbers and the ends
    of statements do not come between it and an `ATOMIC`. -/
def Token.pendingAfter (stack : List Frame) (pending : Bool) : Token → Bool
  | .blank _ | .symbol _ | .parameter _ => pending
  | .number text => text.all Char.isDigit && pending
  | .word text => pendingAfterParts pending (wordParts 0 text)
  | .semicolon => stack = [] && pending
  | _ => false

def Token.plain (stack : List Frame) (pending : Bool) : Token → Bool
  | .word text => plainParts (inBody stack) pending (wordParts 0 text)
  | _ => true

/-- Every token is read as the lexer reads it, and no word is taken for a
    keyword of a body. -/
def readableFrom (stack : List Frame) (pending : Bool) : List Token → Bool
  | [] => true
  | token :: rest =>
    token.readable (textOf rest) && token.plain stack pending &&
      readableFrom ((token.nest stack).getD []) (token.pendingAfter stack pending) rest

/-! ## Words -/

variable {keyword : String}

theorem isAlpha_of_toLower {c : Char} (letter : c.toLower.isAlpha = true) : c.isAlpha = true := by
  by_cases upper : c.isUpper = true
  · simp [Char.isAlpha, upper]
  · rwa [Char.toLower_eq_of_not_isUpper upper] at letter

/-- A keyword is spelled with letters. -/
theorem keyword_letters {text : Text} (spelled : keywordEq text keyword = true)
    (letters : keyword.toList.all Char.isAlpha = true) : ∀ c ∈ text, c.isAlpha = true := by
  intro c inText
  have same : text.map Char.toLower = keyword.toList := of_decide_eq_true spelled
  apply isAlpha_of_toLower
  have inKeyword : c.toLower ∈ keyword.toList := same ▸ List.mem_map_of_mem inText
  exact List.all_eq_true.mp letters _ inKeyword

theorem wordParts_rest (text : Text) : ∀ more, text.length ≤ more → wordParts more text = [] := by
  induction text with
  | nil => exact fun _ _ => by rw [wordParts]
  | cons c text ih =>
    intro more long
    cases more with
    | zero => exact absurd long (Nat.not_succ_le_zero _)
    | succ more => rw [wordParts, ih more (Nat.le_of_succ_le_succ long)]

theorem noDollarQuote_rest (text : Text) :
    ∀ more, text.length ≤ more → noDollarQuote more text = true := by
  induction text with
  | nil => exact fun _ _ => by rw [noDollarQuote]
  | cons c text ih =>
    intro more long
    cases more with
    | zero => exact absurd long (Nat.not_succ_le_zero _)
    | succ more => rw [noDollarQuote, ih more (Nat.le_of_succ_le_succ long)]

/-- A text of ASCII letters is one word. -/
theorem wordParts_letters {text : Text} (full : text ≠ []) (letters : ∀ c ∈ text, c.isAlpha = true) :
    wordParts 0 text = [text] ∧ noDollarQuote 0 text = true := by
  cases text with
  | nil => exact absurd rfl full
  | cons c text =>
    have starts : isIdentifierStart c = true := by
      simp [isIdentifierStart, letters c List.mem_cons_self]
    have all : text.takeWhile isIdentifierContinue = text := by
      refine List.takeWhile_eq_self_iff.mpr fun d inText => ?_
      simp [isIdentifierContinue, Char.isAlphanum, letters d (List.mem_cons_of_mem _ inText)]
    rw [wordParts, if_pos starts, noDollarQuote, if_pos starts]
    simp only [all]
    rw [wordParts_rest text _ (Nat.le_refl _)]
    exact ⟨rfl, noDollarQuote_rest text _ (Nat.le_refl _)⟩

theorem mem_wordParts (text : Text) : ∀ (more : Nat) {part : Text}, part ∈ wordParts more text →
    ∀ c ∈ part, c ∈ text := by
  induction text with
  | nil => exact fun _ _ inParts => by rw [wordParts] at inParts; cases inParts
  | cons first text ih =>
    intro more part inParts c inPart
    cases more with
    | succ more =>
      rw [wordParts] at inParts
      exact .tail _ (ih more inParts c inPart)
    | zero =>
      rw [wordParts] at inParts
      split at inParts
      · cases inParts with
        | head =>
          cases inPart with
          | head => exact (.head _)
          | tail _ continued =>
            exact .tail _ ((List.takeWhile_prefix _).subset continued)
        | tail _ later => exact .tail _ (ih _ later c inPart)
      · exact .tail _ (ih 0 inParts c inPart)

theorem not_alpha_of_digit {c : Char} (digit : c.isDigit = true) : c.isAlpha = false := by
  simp only [Char.isAlpha, Char.isUpper, Char.isLower, Char.isDigit, Bool.or_eq_false_iff,
    Bool.and_eq_true, Bool.and_eq_false_iff, decide_eq_true_eq, ge_iff_le, UInt32.le_iff_toNat_le,
    decide_eq_false_iff_not] at digit ⊢
  have nine : '9'.val.toNat = 57 := rfl
  have upperA : 'A'.val.toNat = 65 := rfl
  have lowerA : 'a'.val.toNat = 97 := rfl
  omega

theorem isNumberChar_toLower {c : Char} (number : isNumberChar c = true) :
    isNumberChar c.toLower = true := by
  rw [isNumberChar, Bool.or_eq_true] at number
  rcases number with digit | letter
  · have notAlpha := not_alpha_of_digit digit
    rw [Char.isAlpha, Bool.or_eq_false_iff] at notAlpha
    rw [Char.toLower_eq_of_not_isUpper (Bool.eq_false_iff.mp notAlpha.1), isNumberChar, digit, Bool.true_or]
  · have isLetter := of_decide_eq_true letter
    simp only [List.mem_cons, List.not_mem_nil, or_false] at isLetter
    rcases isLetter with same | same | same | same | same | same | same | same | same <;>
      rw [same] <;> decide

/-- A number holds no keyword. -/
theorem keywordEq_number {part : Text} (digits : ∀ c ∈ part, isNumberChar c = true)
    (foreign : keyword.toList.any (fun c => !isNumberChar c) = true) :
    keywordEq part keyword = false := by
  rw [Bool.eq_false_iff]
  intro spelled
  have same : part.map Char.toLower = keyword.toList := of_decide_eq_true spelled
  obtain ⟨c, inKeyword, notDigit⟩ := List.any_eq_true.mp foreign
  rw [← same] at inKeyword
  obtain ⟨d, inPart, rfl⟩ := List.mem_map.mp inKeyword
  rw [isNumberChar_toLower (digits d inPart)] at notDigit
  cases notDigit

end FastPg.Wire
