import FastPg.Wire.Lexical
import FastPg.Wire.FunctionCall

/-! # Function calls in SQL

How PostgreSQL reads a query that calls one function: the tokens of its text, the
expression they make, in which a cast binds tighter than a minus before it, and
what the expression denotes. Texts outside this fragment are not read at all.
-/

namespace FastPg.Wire.Select

open SplitState List

/-! ## Tokens -/

inductive Token where
  /-- A keyword or a name, in lower case. -/
  | word (text : Text)
  | number (value : Nat)
  | string (body : Text)
  | typecast
  | minus
  | openParen
  | closeParen
  | comma
  | dot
  deriving DecidableEq, Repr

/-- What the lexer is inside of. -/
inductive Lexing where
  | between
  | word (text : Text)
  | number (digits : Text)
  | string (body : Text)
  /-- After a quote in a string, which ends it unless another one follows. -/
  | quote (body : Text)
  | colon
  | minus
  | comment
  | dot
  deriving DecidableEq, Repr

abbrev Lexed := Option (List Token × Lexing)

def Lexing.start (c : Char) : Lexed :=
  if isSpace c then some ([], .between)
  else if nameStart c then some ([], .word [c])
  else if c.isDigit then some ([], .number [c])
  else match c with
    | '\'' => some ([], .string [])
    | ':' => some ([], .colon)
    | '-' => some ([], .minus)
    | '(' => some ([.openParen], .between)
    | ')' => some ([.closeParen], .between)
    | ',' => some ([.comma], .between)
    | '.' => some ([.dot], .dot)
    | _ => none

/-- A token ends before `c`. -/
def Lexing.emit (token : Token) (c : Char) : Lexed :=
  (start c).map fun next => (token :: next.1, next.2)

def Lexing.word? (text : Text) : Token := .word (text.map Char.toLower)

def Lexing.number? (digits : Text) : Token := .number (Nat.ofDigitChars 10 digits 0)

def Lexing.step : Lexing → Char → Lexed
  | .between, c => start c
  | .word text, c =>
    if nameContinue c then some ([], .word (text ++ [c]))
    -- A quote directly after a letter belongs to another kind of string.
    else if c = '\'' then none
    else emit (word? text) c
  | .number digits, c =>
    if c.isDigit then some ([], .number (digits ++ [c]))
    -- Fractions, exponents and junk after a number.
    else if nameStart c ∨ c = '.' then none
    else emit (number? digits) c
  | .string body, c => if c = '\'' then some ([], .quote body) else some ([], .string (body ++ [c]))
  | .quote body, c =>
    if c = '\'' then some ([], .string (body ++ ['\'']))
    -- A string may go on after a line end.
    else if isSpace c ∨ c = '-' then none
    else emit (.string body) c
  | .colon, c => if c = ':' then some ([.typecast], .between) else none
  | .minus, c => if c = '-' then some ([], .comment) else emit .minus c
  | .comment, c => if c = '\n' ∨ c = '\r' then some ([], .between) else some ([], .comment)
  | .dot, c => if c.isDigit then none else start c

def Lexing.finish : Lexing → Option (List Token)
  | .between | .comment | .dot => some []
  | .word text => some [word? text]
  | .number digits => some [number? digits]
  | .quote body => some [.string body]
  | .minus => some [.minus]
  | .string _ | .colon => none

/-- The tokens that end within a text, and what the lexer is inside of after it. -/
def Lexing.run (state : Lexing) : Text → Lexed
  | [] => some ([], state)
  | c :: rest => (state.step c).bind fun next =>
    (next.2.run rest).map fun last => (next.1 ++ last.1, last.2)

/-- The parser takes the text as a C string, which a NUL ends. -/
def cString (text : Text) : Text := text.takeWhile (· ≠ '\x00')

def lex (text : Text) : Option (List Token) := do
  let (tokens, last) ← Lexing.between.run (cString text)
  return tokens ++ (← last.finish)

theorem Lexing.run_append (first second : Text) : ∀ state : Lexing,
    state.run (first ++ second) = (state.run first).bind fun middle =>
      (middle.2.run second).map fun last => (middle.1 ++ last.1, last.2) := by
  induction first with
  | nil => intro state; simp [run]
  | cons c first ih =>
    intro state
    rw [cons_append, run, run]
    cases state.step c with
    | none => rfl
    | some next =>
      rw [Option.bind_some, Option.bind_some, ih]
      cases next.2.run first with
      | none => rfl
      | some middle => simp [Function.comp_def]

theorem Lexing.run_of_step {state next : Lexing} {tokens : List Token} {c : Char}
    (step : state.step c = some (tokens, next)) (rest : Text) :
    state.run (c :: rest) = (next.run rest).map fun last => (tokens ++ last.1, last.2) := by
  rw [run, step]
  rfl

theorem Lexing.run_number {digits : Text} (all : ∀ c ∈ digits, c.isDigit = true) :
    ∀ seen : Text, (Lexing.number seen).run digits = some ([], .number (seen ++ digits)) := by
  induction digits with
  | nil => intro seen; simp [run]
  | cons c digits ih =>
    intro seen
    have continues : (Lexing.number seen).step c = some ([], .number (seen ++ [c])) :=
      if_pos (all c (.head _))
    rw [run_of_step continues, ih fun c mem => all c (mem_cons_of_mem _ mem)]
    simp

/-- A quote inside a string is written twice. -/
def doubleQuote (c : Char) : Text := if c = '\'' then ['\'', '\''] else [c]

theorem Lexing.run_string (text : Text) : ∀ seen : Text,
    (Lexing.string seen).run (text.flatMap doubleQuote) = some ([], .string (seen ++ text)) := by
  induction text with
  | nil => intro seen; simp [run]
  | cons c text ih =>
    intro seen
    have character : (Lexing.string seen).run (doubleQuote c) = some ([], .string (seen ++ [c])) := by
      by_cases quote : c = '\''
      · subst quote
        rfl
      · have continues : (Lexing.string seen).step c = some ([], .string (seen ++ [c])) :=
          if_neg quote
        rw [doubleQuote, if_neg quote, run_of_step continues]
        rfl
    rw [flatMap_cons, run_append, character]
    simp [ih]

/-- The lexer comes to the same tokens whichever sign ends the argument. -/
structure Lexes (text : Text) (tokens : List Token) : Prop where
  comma : Lexing.between.run (text ++ [',']) = some (tokens ++ [.comma], .between)
  close : Lexing.between.run (text ++ [')']) = some (tokens ++ [.closeParen], .between)

theorem Lexes.of_run {text : Text} {tokens : List Token} {token : Token} {last : Lexing}
    (read : Lexing.between.run text = some (tokens, last))
    (comma : last.step ',' = Lexing.emit token ',') (close : last.step ')' = Lexing.emit token ')') :
    Lexes text (tokens ++ [token]) := by
  constructor
  · rw [Lexing.run_append, read, Option.bind_some, Lexing.run_of_step (comma.trans rfl)]
    simp [Lexing.run]
  · rw [Lexing.run_append, read, Option.bind_some, Lexing.run_of_step (close.trans rfl)]
    simp [Lexing.run]

/-! ## Expressions -/

inductive Expr where
  | null
  | number (value : Nat)
  | string (body : Text)
  | negate (inner : Expr)
  | cast (inner : Expr) (type : Text)
  | call (path : List Text) (args : List Expr)

/-- What an expression is still inside of. -/
inductive Frame where
  | minus
  | call (path : List Text) (args : List Expr)

/-- What the parser has before the next token. -/
inductive Parsing where
  | operand
  /-- After an opening parenthesis, where the arguments may also end. -/
  | arguments
  | value (expr : Expr)
  | type (expr : Expr)
  | name (path : List Text)
  | member (path : List Text)

structure Parser where
  stack : List Frame
  state : Parsing

/-- A minus takes all that follows it up to the end of the argument. -/
def closeMinus : List Frame → Expr → List Frame × Expr
  | .minus :: stack, expr => closeMinus stack (.negate expr)
  | stack, expr => (stack, expr)

def Parser.operand (stack : List Frame) : Token → Option Parser
  | .word text => some ⟨stack, if text = "null".toList then .value .null else .name [text]⟩
  | .number value => some ⟨stack, .value (.number value)⟩
  | .string body => some ⟨stack, .value (.string body)⟩
  | .minus => some ⟨.minus :: stack, .operand⟩
  | _ => none

/-- The call that an argument ends in, with the argument. -/
def Parser.argument (stack : List Frame) (expr : Expr) : Option (List Text × List Expr × List Frame) :=
  match closeMinus stack expr with
  | (.call path args :: stack, expr) => some (path, args ++ [expr], stack)
  | _ => none

def Parser.step (parser : Parser) (token : Token) : Option Parser :=
  match parser.state, token with
  | .arguments, .closeParen => match parser.stack with
      | .call path [] :: stack => some ⟨stack, .value (.call path [])⟩
      | _ => none
  | .arguments, token | .operand, token => operand parser.stack token
  | .name path, .dot => some ⟨parser.stack, .member path⟩
  | .name path, .openParen => some ⟨.call path [] :: parser.stack, .arguments⟩
  | .member path, .word text => some ⟨parser.stack, .name (path ++ [text])⟩
  | .value expr, .typecast => some ⟨parser.stack, .type expr⟩
  | .type expr, .word type => some ⟨parser.stack, .value (.cast expr type)⟩
  | .value expr, .comma => do
      let (path, args, stack) ← argument parser.stack expr
      return ⟨.call path args :: stack, .operand⟩
  | .value expr, .closeParen => do
      let (path, args, stack) ← argument parser.stack expr
      return ⟨stack, .value (.call path args)⟩
  | _, _ => none

def Parser.run (parser : Parser) (tokens : List Token) : Option Parser := tokens.foldlM step parser

def Parser.finish (parser : Parser) : Option Expr :=
  match parser.state with
  | .value expr => match closeMinus parser.stack expr with
      | ([], expr) => some expr
      | _ => none
  | _ => none

def selected : List Token → Option Expr
  | .word select :: tokens =>
    if select = "select".toList then (Parser.run ⟨[], .operand⟩ tokens).bind Parser.finish else none
  | _ => none

/-- The expression that the query selects. -/
def readSelect (text : Text) : Option Expr := (lex text).bind selected

/-- The parser comes to the same expression wherever the argument stands and
    whichever sign ends it. -/
structure Parses (tokens : List Token) (expr : Expr) : Prop where
  comma : ∀ {path args stack state}, state = .operand ∨ state = .arguments →
    Parser.run ⟨.call path args :: stack, state⟩ (tokens ++ [.comma]) =
      some ⟨.call path (args ++ [expr]) :: stack, .operand⟩
  close : ∀ {path args stack state}, state = .operand ∨ state = .arguments →
    Parser.run ⟨.call path args :: stack, state⟩ (tokens ++ [.closeParen]) =
      some ⟨stack, .value (.call path (args ++ [expr]))⟩

theorem Parser.run_append (parser : Parser) (first second : List Token) :
    parser.run (first ++ second) = (parser.run first).bind fun middle => middle.run second :=
  foldlM_append

theorem Parser.run_of_step {parser next : Parser} {token : Token}
    (step : parser.step token = some next) (rest : List Token) :
    parser.run (token :: rest) = next.run rest := by
  rw [run, foldlM_cons, step]
  rfl

/-- The text of an argument is read as the expression. -/
structure Reads (text : Text) (expr : Expr) : Prop where
  noNul : '\x00' ∉ text
  tokens : ∃ tokens, Lexes text tokens ∧ Parses tokens expr

/-- The text ends for the parser inside a string. -/
def Cut (text : Text) : Prop :=
  ∀ rest, ∃ body, Lexing.between.run (cString (text ++ rest)) = some ([], .string body)

def separator : Text := ", ".toList

def argumentList (pieces : List Text) : Text := separator.intercalate pieces ++ [')']

variable {pieces : List Text} {exprs : List Expr}

theorem argumentList_cons_cons (piece next : Text) (pieces : List Text) :
    argumentList (piece :: next :: pieces) =
      piece ++ [','] ++ ([' '] ++ argumentList (next :: pieces)) := by
  simp [argumentList, separator, intercalate, intersperse]

theorem argumentList_singleton (piece : Text) : argumentList [piece] = piece ++ [')'] := by
  simp [argumentList, intercalate, intersperse]

theorem run_space (text : Text) : Lexing.between.run ([' '] ++ text) = Lexing.between.run text := by
  rw [Lexing.run_append]
  simp [Lexing.run, Lexing.step, Lexing.start, isSpace]

theorem reads_arguments (full : pieces ≠ []) (read : Forall₂ Reads pieces exprs) :
    '\x00' ∉ argumentList pieces ∧
      ∃ tokens, Lexing.between.run (argumentList pieces) = some (tokens, .between) ∧
        ∀ {path args stack state}, state = .operand ∨ state = .arguments →
          Parser.run ⟨.call path args :: stack, state⟩ tokens =
            some ⟨stack, .value (.call path (args ++ exprs))⟩ := by
  induction read with
  | nil => exact absurd rfl full
  | @cons piece expr pieces exprs head tail ih =>
    obtain ⟨tokens, lexes, parses⟩ := head.tokens
    cases tail with
    | nil =>
      rw [argumentList_singleton]
      exact ⟨by simp [head.noNul], _, lexes.close, parses.close⟩
    | cons second later =>
      obtain ⟨noNul, more, lexed, parsed⟩ := ih (cons_ne_nil _ _)
      rw [argumentList_cons_cons]
      refine ⟨by simp [head.noNul, noNul], tokens ++ [.comma] ++ more, ?_, fun start => ?_⟩
      · rw [Lexing.run_append, lexes.comma, Option.bind_some, run_space, lexed]
        rfl
      · rw [Parser.run_append, parses.comma start, Option.bind_some, parsed (.inl rfl)]
        simp

theorem cString_append {first : Text} (noNul : '\x00' ∉ first) (second : Text) :
    cString (first ++ second) = first ++ cString second := by
  apply takeWhile_append_of_pos
  intro c mem
  have other : c ≠ '\x00' := fun same => noNul (same ▸ mem)
  simpa using other

theorem cString_of_noNul {text : Text} (noNul : '\x00' ∉ text) : cString text = text := by
  simpa [cString] using cString_append noNul []

theorem cut_arguments (all : ∀ piece ∈ pieces, Cut piece ∨ ∃ expr, Reads piece expr)
    (cut : ∃ piece ∈ pieces, Cut piece) :
    ∃ tokens body, Lexing.between.run (cString (argumentList pieces)) = some (tokens, .string body) := by
  induction pieces with
  | nil => simp at cut
  | cons piece pieces ih =>
    have here : Cut piece →
        ∃ tokens body, Lexing.between.run (cString (argumentList (piece :: pieces))) =
          some (tokens, .string body) := by
      intro isCut
      cases pieces with
      | nil =>
        obtain ⟨body, run⟩ := isCut [')']
        exact ⟨_, body, argumentList_singleton piece ▸ run⟩
      | cons next pieces =>
        obtain ⟨body, run⟩ := isCut ([','] ++ ([' '] ++ argumentList (next :: pieces)))
        rw [argumentList_cons_cons, append_assoc]
        exact ⟨_, body, run⟩
    rcases all piece (.head _) with isCut | ⟨expr, reads⟩
    · exact here isCut
    · obtain ⟨other, mem, isCut⟩ := cut
      rcases mem_cons.mp mem with rfl | mem
      · exact here isCut
      · obtain ⟨tokens, body, run⟩ := ih (fun piece mem => all piece (mem_cons_of_mem _ mem))
          ⟨other, mem, isCut⟩
        obtain ⟨before, lexes, -⟩ := reads.tokens
        cases pieces with
        | nil => simp at mem
        | cons next pieces =>
          refine ⟨before ++ [.comma] ++ tokens, body, ?_⟩
          rw [argumentList_cons_cons, cString_append (by simp [reads.noNul]),
            cString_append (by simp), Lexing.run_append, lexes.comma, Option.bind_some, run_space,
            run]
          rfl

/-- The text before the arguments of a call of a function in `pg_catalog`. -/
def callStart (name : String) : Text := "SELECT pg_catalog.".toList ++ name.toList ++ "(".toList

/-- The name is one word for the lexer. -/
structure PlainName (name : String) : Prop where
  noNul : '\x00' ∉ callStart name
  lexed : Lexing.between.run (callStart name) = some ([.word "select".toList,
    .word "pg_catalog".toList, .dot, .word name.toList, .openParen], .between)

instance (name : String) : Decidable (PlainName name) :=
  decidable_of_iff (_ ∧ _) ⟨fun both => ⟨both.1, both.2⟩, fun plain => ⟨plain.noNul, plain.lexed⟩⟩

theorem readSelect_of_reads {name : String} (plain : PlainName name) (full : pieces ≠ [])
    (read : Forall₂ Reads pieces exprs) :
    readSelect (callStart name ++ argumentList pieces) =
      some (.call ["pg_catalog".toList, name.toList] exprs) := by
  obtain ⟨noNul, tokens, lexed, parsed⟩ := reads_arguments full read
  have all : lex (callStart name ++ argumentList pieces) = some ([.word "select".toList,
      .word "pg_catalog".toList, .dot, .word name.toList, .openParen] ++ tokens) := by
    rw [lex, cString_append plain.noNul, cString_of_noNul noNul, Lexing.run_append, plain.lexed,
      Option.bind_some, lexed]
    simp [Lexing.finish]
  have called : Parser.run ⟨[], .operand⟩ ([.word "pg_catalog".toList, .dot, .word name.toList,
      .openParen] ++ tokens) = some ⟨[], .value (.call ["pg_catalog".toList, name.toList] exprs)⟩ := by
    rw [Parser.run_append]
    exact parsed (.inr rfl)
  rw [readSelect, all, Option.bind_some, cons_append, selected, if_pos rfl, called]
  rfl

theorem readSelect_of_cut {name : String} (plain : PlainName name)
    (all : ∀ piece ∈ pieces, Cut piece ∨ ∃ expr, Reads piece expr)
    (cut : ∃ piece ∈ pieces, Cut piece) :
    readSelect (callStart name ++ argumentList pieces) = none := by
  obtain ⟨tokens, body, run⟩ := cut_arguments all cut
  have unread : lex (callStart name ++ argumentList pieces) = none := by
    rw [lex, cString_append plain.noNul, Lexing.run_append, plain.lexed, Option.bind_some, run]
    simp [Lexing.finish]
  rw [readSelect, unread]
  rfl

/-! ## Values -/

inductive SqlType where
  | bytea
  | int4
  | int8
  | oid
  deriving DecidableEq, Repr

def SqlType.name : SqlType → String
  | .bytea => "bytea"
  | .int4 => "int4"
  | .int8 => "int8"
  | .oid => "oid"

def SqlType.all : List SqlType := [.bytea, .int4, .int8, .oid]

def SqlType.named (text : Text) : Option SqlType := all.find? fun type => type.name.toList = text

inductive Datum where
  | null
  /-- A string constant without a type. -/
  | unknown (body : Text)
  | int4 (value : Int)
  | int8 (value : Int)
  | numeric (value : Int)
  | oid (value : Nat)
  | bytea (bytes : Bytes)
  deriving DecidableEq, Repr

def fitsInt (width : Nat) (value : Int) : Bool :=
  -(2 ^ (8 * width - 1) : Nat) ≤ value ∧ value < (2 ^ (8 * width - 1) : Nat)

/-- The smallest integer type that has the number. -/
def Datum.ofNumber (value : Nat) : Datum :=
  if fitsInt 4 value then .int4 value else if fitsInt 8 value then .int8 value else .numeric value

def Datum.toInt4 (value : Int) : Option Datum := if fitsInt 4 value then some (.int4 value) else none

def Datum.toInt8 (value : Int) : Option Datum := if fitsInt 8 value then some (.int8 value) else none

/-- A value as the type, by the type's input function where it is a constant without
    one. -/
def Datum.castTo (input : SqlType → Text → Option Datum) (type : SqlType) : Datum → Option Datum
  | .null => some .null
  | .unknown body => input type body
  | .int4 value => match type with
      | .int4 => some (.int4 value)
      | .int8 => some (.int8 value)
      | .oid => some (.oid (value % 2 ^ 32).toNat)
      | .bytea => none
  | .int8 value => match type with
      | .int4 => toInt4 value
      | .int8 => some (.int8 value)
      | .oid => if 0 ≤ value ∧ value < 2 ^ 32 then some (.oid value.toNat) else none
      | .bytea => none
  | .numeric value => match type with
      | .int4 => toInt4 value
      | .int8 => toInt8 value
      | .oid | .bytea => none
  | .oid value => if type = .oid then some (.oid value) else none
  | .bytea bytes => if type = .bytea then some (.bytea bytes) else none

def Datum.negate : Datum → Option Datum
  | .null => some .null
  | .int4 value => toInt4 (-value)
  | .int8 value => toInt8 (-value)
  | .numeric value => some (.numeric (-value))
  | _ => none

def hexDigit (c : Char) : Option Nat :=
  if c.isDigit then some (c.toNat - 48)
  else if 'a' ≤ c ∧ c ≤ 'f' then some (c.toNat - 87)
  else if 'A' ≤ c ∧ c ≤ 'F' then some (c.toNat - 55)
  else none

def hexDecode : Text → Option Bytes
  | high :: low :: rest => do
      let byte := 16 * (← hexDigit high) + (← hexDigit low)
      return UInt8.ofNat byte :: (← hexDecode rest)
  | [] => some []
  | [_] => none

/-- The function `decode` of a text and the name of a format. -/
def decodeCall : List Datum → Option Datum
  | [.unknown body, .unknown format] =>
    if format = "hex".toList then (hexDecode body).map .bytea else none
  | _ => none

mutual
/-- What an expression denotes, without calls of other functions than `decode`. -/
def Expr.eval (input : SqlType → Text → Option Datum) : Expr → Option Datum
  | .null => some .null
  | .number value => some (.ofNumber value)
  | .string body => some (.unknown body)
  | .negate inner => do (← inner.eval input).negate
  | .cast inner type => do (← inner.eval input).castTo input (← SqlType.named type)
  | .call path args => do
      if path = ["decode".toList] then decodeCall (← Expr.evalAll input args) else none

def Expr.evalAll (input : SqlType → Text → Option Datum) : List Expr → Option (List Datum)
  | [] => some []
  | expr :: rest => do return (← expr.eval input) :: (← evalAll input rest)
end

end FastPg.Wire.Select
