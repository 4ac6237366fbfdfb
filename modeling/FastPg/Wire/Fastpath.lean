import FastPg.Wire.Select
import FastPg.Copy.Stream

/-! # Function calls as queries

The server answers a FunctionCall message by a query: every argument becomes an
expression of the query's one call. PostgreSQL reads each expression as the
argument's value, with two exceptions. The least number of an integer type is
written as a minus before a cast, and the cast of the positive number overflows. A
text with a NUL character ends the query early. The bytes of a large object come
back as the text of a bytea in either of its formats, which are read back exactly.
-/

namespace FastPg.Wire

open List Option

/-! ## The functions -/

inductive FastpathArgType where
  | bytea
  | int4
  | int8
  | oid
  deriving DecidableEq, Repr

def FastpathArgType.sqlType : FastpathArgType → String
  | .bytea => "bytea"
  | .int4 => "int4"
  | .int8 => "int8"
  | .oid => "oid"

structure FastpathFunction where
  oid : Nat
  name : String
  args : List FastpathArgType
  deriving DecidableEq, Repr

def loOpenArgs : List FastpathArgType := [.oid, .int4]

def loCloseArgs : List FastpathArgType := [.int4]

def loreadArgs : List FastpathArgType := [.int4, .int4]

def lowriteArgs : List FastpathArgType := [.int4, .bytea]

def loLseekArgs : List FastpathArgType := [.int4, .int4, .int4]

def loLseek64Args : List FastpathArgType := [.int4, .int8, .int4]

def loCreatArgs : List FastpathArgType := [.int4]

def loCreateArgs : List FastpathArgType := [.oid]

def loTellArgs : List FastpathArgType := [.int4]

def loTruncateArgs : List FastpathArgType := [.int4, .int4]

def loTruncate64Args : List FastpathArgType := [.int4, .int8]

def loUnlinkArgs : List FastpathArgType := [.oid]

def fastpathFunctions : List FastpathFunction :=
  [⟨952, "lo_open", loOpenArgs⟩, ⟨953, "lo_close", loCloseArgs⟩, ⟨954, "loread", loreadArgs⟩,
    ⟨955, "lowrite", lowriteArgs⟩, ⟨956, "lo_lseek", loLseekArgs⟩,
    ⟨3170, "lo_lseek64", loLseek64Args⟩, ⟨957, "lo_creat", loCreatArgs⟩,
    ⟨715, "lo_create", loCreateArgs⟩, ⟨958, "lo_tell", loTellArgs⟩, ⟨3171, "lo_tell64", loTellArgs⟩,
    ⟨1004, "lo_truncate", loTruncateArgs⟩, ⟨3172, "lo_truncate64", loTruncate64Args⟩,
    ⟨964, "lo_unlink", loUnlinkArgs⟩]

def fastpathFunction (oid : Nat) : Except WireError FastpathFunction :=
  match fastpathFunctions.find? fun function => function.oid = oid with
  | some function => .ok function
  | none => .error (.user "ERROR" "42883" s!"function with OID {oid} does not exist")

/-! ## The query -/

def sqlQuoteLiteral (value : Text) : Text := '\'' :: (value.flatMap Select.doubleQuote ++ ['\''])

def hexDigits : Text := "0123456789abcdef".toList

def hexByte (byte : UInt8) : Text :=
  [hexDigits.getD (byte >>> 4).toNat '0', hexDigits.getD (byte &&& 0x0F).toNat '0']

def hexEncode (bytes : Bytes) : Text := bytes.flatMap hexByte

/-- The common part of `read_be_i32`, `read_be_i64` and `read_be_u32`. -/
def readBe {α : Type} (width : Nat) (type : String) (number : Nat → α) (value : Bytes) :
    Except WireError α :=
  if value.length = width then .ok (number (BigEndian.decode value))
  else .error (protocolError s!"expected {width}-byte {type} argument, got {value.length}")

def readBeI32 (value : Bytes) : Except WireError Int := readBe 4 "int4" (BigEndian.signed 4) value

def readBeI64 (value : Bytes) : Except WireError Int := readBe 8 "int8" (BigEndian.signed 8) value

def readBeU32 (value : Bytes) : Except WireError Nat := readBe 4 "oid" id value

def binaryFunctionArgSql (value : Bytes) : FastpathArgType → Except WireError Text
  | .bytea => .ok ("decode('".toList ++ hexEncode value ++ "', 'hex')".toList)
  | .int4 => (readBeI32 value).map fun number => (toString number).toList ++ "::int4".toList
  | .int8 => (readBeI64 value).map fun number => (toString number).toList ++ "::int8".toList
  | .oid => (readBeU32 value).map fun number => (toString number).toList ++ "::oid".toList

/-- The characters of UTF-8 data: `later` bytes of a character with the bits `bits` are
    still to come. -/
def utf8CharsFrom (later bits : Nat) : Bytes → Text
  | [] => []
  | byte :: rest => match later with
      | 0 =>
        if byte < 0x80 then Char.ofNat byte.toNat :: utf8CharsFrom 0 0 rest
        else if byte < 0xE0 then utf8CharsFrom 1 (byte &&& 0x1F).toNat rest
        else if byte < 0xF0 then utf8CharsFrom 2 (byte &&& 0x0F).toNat rest
        else utf8CharsFrom 3 (byte &&& 0x07).toNat rest
      | 1 => Char.ofNat (64 * bits + (byte &&& 0x3F).toNat) :: utf8CharsFrom 0 0 rest
      | later + 1 => utf8CharsFrom later (64 * bits + (byte &&& 0x3F).toNat) rest

def utf8Chars (data : Bytes) : Text := utf8CharsFrom 0 0 data

def fromUtf8 (data : Bytes) : Except Copy.Utf8Error Text :=
  match Copy.utf8Error data with
  | none => .ok (utf8Chars data)
  | some error => .error error

def functionArgSql (value : Option Bytes) (argType : FastpathArgType) (formatCode : Int) :
    Except WireError Text :=
  match value with
  | none => .ok ("NULL::".toList ++ argType.sqlType.toList)
  | some value =>
    if formatCode = 1 then binaryFunctionArgSql value argType
    else if formatCode ≠ 0 then
      .error (protocolError s!"unsupported FunctionCall argument format code: {formatCode}")
    else match fromUtf8 value with
      | .error error => .error (protocolError s!"invalid text FunctionCall argument: {error.text}")
      | .ok text => .ok (sqlQuoteLiteral text ++ "::".toList ++ argType.sqlType.toList)

/-- An argument with its type and format. A format that is not there is read past
    the end of the formats. -/
structure GivenArg where
  value : Option Bytes
  type : FastpathArgType
  format : Option Int
  deriving DecidableEq, Repr

def FunctionCall.given (call : FunctionCall) (function : FastpathFunction) : List GivenArg :=
  (call.args.zip function.args).mapIdx fun index (value, type) =>
    ⟨value, type, call.argFormatCode index⟩

def GivenArg.sql (arg : GivenArg) : Except Stop Text :=
  match arg.format with
  | none => .error .panic
  | some format => (functionArgSql arg.value arg.type format).mapError .error

/-- `execute_fastpath_function` up to the query that it runs. -/
def fastpathSql (call : FunctionCall) : Except Stop Text := do
  let function ← (fastpathFunction call.functionId).mapError .error
  if call.args.length ≠ function.args.length then
    throw (.error (protocolError
      s!"function call message contains {call.args.length} arguments but function requires {function.args.length}"))
  if 1 < call.argFormatCodes.length ∧ call.argFormatCodes.length ≠ call.args.length then
    throw (.error (protocolError
      s!"function call message contains {call.argFormatCodes.length} argument formats but {call.args.length} arguments"))
  if call.resultFormatCode ≠ 1 then
    throw (.error (protocolError
      s!"unsupported FunctionCall result format code: {call.resultFormatCode}"))
  let pieces ← (call.given function).mapM GivenArg.sql
  return "SELECT pg_catalog.".toList ++ function.name.toList ++ "(".toList ++
    (", ".toList.intercalate pieces ++ ")".toList)

/-! ## Bytea results -/

def hexValue (byte : UInt8) : Except WireError UInt8 :=
  if 48 ≤ byte ∧ byte ≤ 57 then .ok (byte - 48)
  else if 97 ≤ byte ∧ byte ≤ 102 then .ok (byte - 97 + 10)
  else if 65 ≤ byte ∧ byte ≤ 70 then .ok (byte - 65 + 10)
  else .error (protocolError "invalid bytea hex digit")

def hexPairs : Bytes → Except WireError Bytes
  | first :: second :: rest => do
      let high ← hexValue first
      let low ← hexValue second
      return (high <<< 4 ||| low) :: (← hexPairs rest)
  | _ => .ok []

def parseHexBytea (hex : Bytes) : Except WireError Bytes :=
  if hex.length % 2 ≠ 0 then .error (protocolError "invalid bytea hex length") else hexPairs hex

def isOctalDigit (byte : UInt8) : Bool := 48 ≤ byte ∧ byte ≤ 55

def backslash : UInt8 := 92

def parseEscapeBytea : Bytes → Except WireError Bytes
  | [] => .ok []
  | byte :: rest =>
    if byte ≠ backslash then (parseEscapeBytea rest).map (byte :: ·)
    else match rest with
      | [] => .ok [backslash]
      | next :: rest =>
        if isOctalDigit next then match rest with
          | second :: third :: rest =>
            if isOctalDigit second ∧ isOctalDigit third then
              (parseEscapeBytea rest).map
                (((next - 48) <<< 6 ||| (second - 48) <<< 3 ||| (third - 48)) :: ·)
            else .error (protocolError "invalid bytea octal escape")
          | _ => .error (protocolError "truncated bytea octal escape")
        else (parseEscapeBytea rest).map (next :: ·)

/-- The text of a bytea is given by its bytes. -/
def parseByteaText (value : Bytes) : Except WireError Bytes :=
  match value with
  | 92 :: 120 :: hex => parseHexBytea hex
  | _ => parseEscapeBytea value

/-! ## Arguments as they are read -/

def FastpathArgType.denotes : FastpathArgType → Select.SqlType
  | .bytea => .bytea
  | .int4 => .int4
  | .int8 => .int8
  | .oid => .oid

namespace Select

variable {operand : Token} (type : FastpathArgType) (n : Nat) (byte : UInt8) (bytes : Bytes)

theorem named_sqlType :
    SqlType.named type.sqlType.toList = some type.denotes := by
  cases type <;> rfl

/-- The end of an argument with a cast, after the first colon. -/
theorem run_cast :
    Lexing.colon.run (':' :: type.sqlType.toList) =
      some ([.typecast], .word type.sqlType.toList) := by
  cases type <;> rfl

theorem word_sqlType :
    Lexing.word? type.sqlType.toList = .word type.sqlType.toList := by
  cases type <;> rfl

variable {text : Text}

/-- An operand with a cast: its token, and the cast. -/
theorem lexes_cast {before : List Token} {last : Lexing}
    (read : Lexing.between.run text = some (before, last))
    (ends : last.step ':' = Lexing.emit operand ':') (type : FastpathArgType) :
    Lexes (text ++ "::".toList ++ type.sqlType.toList)
      (before ++ [operand, .typecast, .word type.sqlType.toList]) := by
  have cast : last.run (':' :: ':' :: type.sqlType.toList) =
      some ([operand, .typecast], .word type.sqlType.toList) := by
    rw [Lexing.run_of_step (ends.trans rfl), run_cast]
    rfl
  have whole : Lexing.between.run (text ++ "::".toList ++ type.sqlType.toList) =
      some (before ++ [operand, .typecast], .word type.sqlType.toList) := by
    rw [append_assoc, Lexing.run_append, read, bind_some]
    exact congrArg (Option.map _) cast
  have lexes : Lexes _ (_ ++ [Lexing.word? type.sqlType.toList]) := Lexes.of_run whole rfl rfl
  rw [word_sqlType] at lexes
  simpa using lexes

/-- An operand with a cast, also with a minus before it. -/
theorem parses_cast {expr : Expr} (type : Text)
    (operates : ∀ stack, Parser.operand stack operand = some ⟨stack, .value expr⟩)
    (opens : operand ≠ .closeParen) :
    Parses [operand, .typecast, .word type] (.cast expr type) ∧
      Parses [.minus, operand, .typecast, .word type] (.negate (.cast expr type)) := by
  have step : ∀ stack state, state = .operand ∨ state = .arguments →
      Parser.step ⟨stack, state⟩ operand = some ⟨stack, .value expr⟩ := by
    intro stack state start
    rw [← operates stack]
    rcases start with rfl | rfl
    · rfl
    · cases operand <;> first | rfl | exact absurd rfl opens
  have minus : ∀ stack state, state = .operand ∨ state = .arguments →
      Parser.step ⟨stack, state⟩ .minus = some ⟨.minus :: stack, .operand⟩ := by
    rintro stack state (rfl | rfl) <;> rfl
  constructor
  · constructor
    all_goals
      intro path args stack state start
      exact Parser.run_of_step (step _ _ start) _
  · constructor
    all_goals
      intro path args stack state start
      exact (Parser.run_of_step (minus _ _ start) _).trans (Parser.run_of_step (step _ _ (.inl rfl)) _)

/-! ### Null -/

theorem reads_null :
    Reads ("NULL::".toList ++ type.sqlType.toList) (.cast .null type.sqlType.toList) := by
  have word : Lexing.between.run "NULL".toList = some ([], .word "NULL".toList) := rfl
  have lexes : Lexes _ ([] ++ [.word "null".toList, _, _]) := lexes_cast word rfl type
  exact ⟨by cases type <;> decide, _, lexes,
    (parses_cast _ (fun _ => rfl) (by decide)).1⟩

/-! ### Numbers -/

theorem digit_of_mem {n : Nat} {c : Char} (mem : c ∈ Nat.toDigits 10 n) : c.isDigit = true :=
  Nat.isDigit_of_mem_toDigits (by decide) (by decide) mem

theorem digit_cases {c : Char} (digit : c.isDigit = true) :
    c ∈ ['0', '1', '2', '3', '4', '5', '6', '7', '8', '9'] := by
  have same : Char.ofNat c.toNat = c := Char.ofNat_toNat c
  simp only [Char.isDigit, Bool.and_eq_true, decide_eq_true_eq, ge_iff_le, UInt32.le_iff_toNat_le]
    at digit
  have low : 48 ≤ c.toNat := digit.1
  have high : c.toNat ≤ 57 := digit.2
  rw [← same]
  generalize c.toNat = n at low high
  interval_cases n <;> decide

theorem start_digit {c : Char} (digit : c.isDigit = true) :
    Lexing.start c = some ([], .number [c]) := by
  have mem := digit_cases digit
  fin_cases mem <;> rfl

/-- The digits of a number, and what comes before them. -/
theorem run_digits (n : Nat) {state : Lexing} {before : List Token}
    (starts : ∀ c : Char, c.isDigit = true → state.step c = some (before, .number [c])) :
    state.run (Nat.toDigits 10 n) = some (before, .number (Nat.toDigits 10 n)) := by
  cases digits : Nat.toDigits 10 n with
  | nil => exact absurd digits Nat.toDigits_ne_nil
  | cons c rest =>
    have all : ∀ d ∈ c :: rest, d.isDigit = true := fun d mem => digit_of_mem (digits ▸ mem)
    rw [Lexing.run_of_step (starts c (all c mem_cons_self)),
      Lexing.run_number fun d mem => all d (.tail _ mem)]
    simp

theorem toList_toString_negSucc :
    (toString (Int.negSucc n)).toList = '-' :: Nat.toDigits 10 (n + 1) := by
  rw [show toString (Int.negSucc n) = "-" ++ Nat.repr (n + 1) from rfl, String.toList_append,
    Nat.toList_repr]
  rfl

theorem noNul_cast (noNul : '\x00' ∉ text) (type : FastpathArgType) :
    '\x00' ∉ text ++ "::".toList ++ type.sqlType.toList := by
  have cast : '\x00' ∉ "::".toList ++ type.sqlType.toList := by cases type <;> decide
  rw [append_assoc, mem_append, not_or]
  exact ⟨noNul, cast⟩

theorem noNul_digits : '\x00' ∉ Nat.toDigits 10 n :=
  fun mem => absurd (digit_of_mem mem) (by decide)

theorem reads_number (type : FastpathArgType) :
    Reads (Nat.toDigits 10 n ++ "::".toList ++ type.sqlType.toList)
      (.cast (.number n) type.sqlType.toList) := by
  have run := @run_digits n .between [] fun c digit => start_digit digit
  have lexes : Lexes _ (_ ++ [Lexing.number? _, _, _]) := lexes_cast run rfl type
  rw [Lexing.number?, Nat.ofDigitChars_ten_toDigits] at lexes
  exact ⟨noNul_cast (noNul_digits n) type, _, lexes, (parses_cast _ (fun _ => rfl) (by simp)).1⟩

theorem reads_minus (type : FastpathArgType) :
    Reads ('-' :: Nat.toDigits 10 n ++ "::".toList ++ type.sqlType.toList)
      (.negate (.cast (.number n) type.sqlType.toList)) := by
  have step : ∀ c : Char, c.isDigit = true → Lexing.minus.step c = some ([.minus], .number [c]) := by
    intro c digit
    have other : c ≠ '-' := by
      rintro rfl
      exact absurd digit (by decide)
    rw [Lexing.step, if_neg other, Lexing.emit, start_digit digit]
    rfl
  have run : Lexing.between.run ('-' :: Nat.toDigits 10 n) =
      some ([.minus], .number (Nat.toDigits 10 n)) := by
    rw [Lexing.run_of_step (show Lexing.between.step '-' = some ([], .minus) from rfl),
      run_digits n step]
    rfl
  have lexes : Lexes _ (_ ++ [Lexing.number? _, _, _]) := lexes_cast run rfl type
  rw [Lexing.number?, Nat.ofDigitChars_ten_toDigits] at lexes
  exact ⟨noNul_cast (by simp [noNul_digits]) type, _, lexes,
    (parses_cast _ (fun _ => rfl) (by simp)).2⟩

/-! ### Texts -/

theorem run_quoted (text : Text) :
    Lexing.between.run (sqlQuoteLiteral text) = some ([], .quote text) := by
  rw [sqlQuoteLiteral,
    Lexing.run_of_step (show Lexing.between.step '\'' = some ([], .string []) from rfl),
    Lexing.run_append, Lexing.run_string]
  rfl

theorem mem_doubled (c : Char) (text : Text) : c ∈ text.flatMap doubleQuote ↔ c ∈ text := by
  simp only [mem_flatMap, doubleQuote]
  constructor
  · rintro ⟨d, mem, here⟩
    split at here <;> simp_all
  · intro mem
    exact ⟨c, mem, by split <;> simp_all⟩

theorem reads_text (noNul : '\x00' ∉ text) (type : FastpathArgType) :
    Reads (sqlQuoteLiteral text ++ "::".toList ++ type.sqlType.toList)
      (.cast (.string text) type.sqlType.toList) := by
  have lexes : Lexes _ ([] ++ [.string text, _, _]) := lexes_cast (run_quoted text) rfl type
  have quoted : '\x00' ∉ sqlQuoteLiteral text := by
    simp only [sqlQuoteLiteral, mem_cons, mem_append, mem_doubled, noNul]
    decide
  exact ⟨noNul_cast quoted type, _, lexes, (parses_cast _ (fun _ => rfl) (by simp)).1⟩

theorem cString_doubled (nul : '\x00' ∈ text) (rest : Text) :
    cString (text.flatMap doubleQuote ++ rest) = (cString text).flatMap doubleQuote := by
  induction text with
  | nil => simp at nul
  | cons c text ih =>
    by_cases isNul : c = '\x00'
    · subst isNul
      rfl
    · have later : '\x00' ∈ text := by
        rcases mem_cons.mp nul with same | later
        · exact absurd same.symm isNul
        · exact later
      have whole : '\x00' ∉ doubleQuote c := by
        intro mem
        have := (mem_doubled '\x00' [c]).mp (by simpa using mem)
        exact isNul (mem_singleton.mp this).symm
      rw [flatMap_cons, append_assoc, cString_append whole, ih later,
        show c :: text = [c] ++ text from rfl,
        cString_append (by simpa using fun same => isNul same.symm), flatMap_append]
      simp

theorem cut_text (nul : '\x00' ∈ text) (more : Text) :
    Cut (sqlQuoteLiteral text ++ more) := by
  intro rest
  have quoted : sqlQuoteLiteral text ++ more ++ rest =
      ['\''] ++ (text.flatMap doubleQuote ++ (['\''] ++ (more ++ rest))) := by
    simp [sqlQuoteLiteral]
  rw [quoted, cString_append (by decide), cString_doubled nul, singleton_append,
    Lexing.run_of_step (show Lexing.between.step '\'' = some ([], .string []) from rfl),
    Lexing.run_string]
  exact ⟨_, rfl⟩

/-! ### Bytes -/

theorem high_toNat : (byte >>> 4).toNat = byte.toNat / 16 := by
  rw [UInt8.toNat_shiftRight]
  simp only [UInt8.reduceToNat, Nat.reduceMod, Nat.shiftRight_eq_div_pow, Nat.reducePow]

theorem low_toNat : (byte &&& 0x0F).toNat = byte.toNat % 16 := by
  rw [UInt8.toNat_and]
  exact Nat.and_two_pow_sub_one_eq_mod byte.toNat 4

theorem high_lt : (byte >>> 4).toNat < 16 := by
  have := byte.toNat_lt
  rw [high_toNat]
  omega

theorem low_lt : (byte &&& 0x0F).toNat < 16 := by
  rw [low_toNat]
  omega

theorem hexByte_plain : ∀ c ∈ hexByte byte, c ∈ hexDigits := by
  intro c mem
  have digit : ∀ n : Nat, n < 16 → hexDigits.getD n '0' ∈ hexDigits := by
    intro n small
    rw [getD_eq_getElem _ _ small]
    exact getElem_mem small
  simp only [hexByte, mem_cons, not_mem_nil, or_false] at mem
  rcases mem with rfl | rfl
  · exact digit _ (high_lt byte)
  · exact digit _ (low_lt byte)

theorem hexEncode_plain : ∀ c ∈ hexEncode bytes, c ∈ hexDigits := by
  intro c mem
  obtain ⟨byte, -, mem⟩ := mem_flatMap.mp mem
  exact hexByte_plain byte c mem

theorem doubled_hexEncode :
    (hexEncode bytes).flatMap doubleQuote = hexEncode bytes := by
  have noQuote : '\'' ∉ hexDigits := by decide
  have plain : ∀ c ∈ hexDigits, doubleQuote c = [c] :=
    fun c mem => if_neg (ne_of_mem_of_not_mem mem noQuote)
  calc (hexEncode bytes).flatMap doubleQuote
      = (hexEncode bytes).flatMap fun c => [c] :=
        flatMap_congr fun c mem => plain c (hexEncode_plain bytes c mem)
    _ = hexEncode bytes := flatMap_singleton' _

theorem reads_bytes :
    Reads ("decode('".toList ++ hexEncode bytes ++ "', 'hex')".toList)
      (.call ["decode".toList] [.string (hexEncode bytes), .string "hex".toList]) := by
  have opening : Lexing.between.run "decode('".toList =
      some ([.word "decode".toList, .openParen], .string []) := rfl
  have run : Lexing.between.run ("decode('".toList ++ hexEncode bytes ++ "', 'hex')".toList) =
      some ([.word "decode".toList, .openParen, .string (hexEncode bytes), .comma,
        .string "hex".toList, .closeParen], .between) := by
    rw [append_assoc, Lexing.run_append, opening, bind_some, Lexing.run_append,
      ← doubled_hexEncode, Lexing.run_string, doubled_hexEncode]
    rfl
  refine ⟨?_, [.word "decode".toList, .openParen, .string (hexEncode bytes), .comma,
    .string "hex".toList, .closeParen], ⟨?_, ?_⟩, ⟨?_, ?_⟩⟩
  · have plain : '\x00' ∉ hexEncode bytes :=
      fun mem => absurd (hexEncode_plain bytes _ mem) (by decide)
    simp only [mem_append, plain]
    decide
  · rw [Lexing.run_append, run]
    rfl
  · rw [Lexing.run_append, run]
    rfl
  · rintro path args stack state (rfl | rfl) <;> rfl
  · rintro path args stack state (rfl | rfl) <;> rfl

theorem hexDigit_getD {n : Nat} (small : n < 16) : hexDigit (hexDigits.getD n '0') = some n := by
  interval_cases n <;> rfl

theorem hexDecode_hexEncode : hexDecode (hexEncode bytes) = some bytes := by
  induction bytes with
  | nil => rfl
  | cons byte bytes ih =>
    have whole : UInt8.ofNat (16 * (byte >>> 4).toNat + (byte &&& 0x0F).toNat) = byte := by
      rw [high_toNat, low_toNat, Nat.div_add_mod, UInt8.ofNat_toNat]
    have more : hexDecode (bytes.flatMap hexByte) = some bytes := ih
    rw [hexEncode, flatMap_cons, hexByte, cons_append, cons_append, nil_append,
      hexDecode, hexDigit_getD (high_lt byte), hexDigit_getD (low_lt byte), more]
    exact congrArg (fun first => some (first :: bytes)) whole

end Select

/-! ## The values of the arguments -/

section

variable (input : Select.SqlType → Text → Option Select.Datum)

/-- The value that an argument stands for. A text is read by the input function of
    its type. -/
def GivenArg.datum (arg : GivenArg) : Option Select.Datum :=
  match arg.value with
  | none => some .null
  | some value =>
    if arg.format = some 1 then match arg.type with
      | .bytea => some (.bytea value)
      | .int4 => some (.int4 (BigEndian.signed 4 (BigEndian.decode value)))
      | .int8 => some (.int8 (BigEndian.signed 8 (BigEndian.decode value)))
      | .oid => some (.oid (BigEndian.decode value))
    else input arg.type.denotes (utf8Chars value)

end

/-- A binary argument is the least number of its type. -/
def GivenArg.isLeast (arg : GivenArg) : Bool :=
  match arg.value, arg.type with
  | some value, .int4 => arg.format = some 1 ∧ BigEndian.signed 4 (BigEndian.decode value) = -2 ^ 31
  | some value, .int8 => arg.format = some 1 ∧ BigEndian.signed 8 (BigEndian.decode value) = -2 ^ 63
  | _, _ => false

/-- A text argument has a NUL character. -/
def GivenArg.hasNul (arg : GivenArg) : Bool :=
  match arg.value with
  | some value => arg.format = some 0 ∧ '\x00' ∈ utf8Chars value
  | none => false

namespace Select

variable (input : SqlType → Text → Option Datum)

theorem eval_cast {expr : Expr} {datum : Datum} (evaluated : expr.eval input = some datum)
    (type : FastpathArgType) :
    (Expr.cast expr type.sqlType.toList).eval input = datum.castTo input type.denotes := by
  rw [Expr.eval, evaluated, named_sqlType]
  rfl

theorem eval_null (type : FastpathArgType) :
    (Expr.cast .null type.sqlType.toList).eval input = some .null :=
  eval_cast input (by rw [Expr.eval]) type

theorem eval_text (text : Text) (type : FastpathArgType) :
    (Expr.cast (.string text) type.sqlType.toList).eval input = input type.denotes text :=
  eval_cast input (show (Expr.string text).eval input = some (.unknown text) by rw [Expr.eval]) type

theorem eval_bytes (bytes : Bytes) :
    (Expr.call ["decode".toList] [.string (hexEncode bytes), .string "hex".toList]).eval input =
      some (.bytea bytes) := by
  have args : Expr.evalAll input [.string (hexEncode bytes), .string "hex".toList] =
      some [.unknown (hexEncode bytes), .unknown "hex".toList] := by
    simp only [Expr.evalAll, Expr.eval]
    rfl
  have called : decodeCall [.unknown (hexEncode bytes), .unknown "hex".toList] =
      some (.bytea bytes) := by
    rw [decodeCall, if_pos rfl, hexDecode_hexEncode]
    rfl
  rw [Expr.eval, if_pos rfl, args]
  exact called

theorem eval_number (n : Nat) (type : FastpathArgType) :
    (Expr.cast (.number n) type.sqlType.toList).eval input =
      (Datum.ofNumber n).castTo input type.denotes :=
  eval_cast input (show (Expr.number n).eval input = some (.ofNumber n) by rw [Expr.eval]) type

theorem fitsInt_iff {width : Nat} {value : Int} : fitsInt width value = true ↔
    -(2 ^ (8 * width - 1) : Nat) ≤ value ∧ value < (2 ^ (8 * width - 1) : Nat) :=
  decide_eq_true_iff

theorem fitsInt_mono {value : Int} (fits : fitsInt 4 value = true) : fitsInt 8 value = true := by
  rw [fitsInt_iff] at fits ⊢
  omega

theorem castTo_int4 (n : Nat) : (Datum.ofNumber n).castTo input .int4 = Datum.toInt4 n := by
  rw [Datum.ofNumber, Datum.toInt4]
  split
  · rfl
  · split <;> simp_all [Datum.castTo, Datum.toInt4]

theorem castTo_int8 (n : Nat) : (Datum.ofNumber n).castTo input .int8 = Datum.toInt8 n := by
  rw [Datum.ofNumber, Datum.toInt8]
  split
  · rename_i small
    rw [if_pos (fitsInt_mono small)]
    rfl
  · split <;> simp_all [Datum.castTo, Datum.toInt8]

theorem castTo_oid {n : Nat} (small : n < 2 ^ 32) :
    (Datum.ofNumber n).castTo input .oid = some (.oid n) := by
  have fits : fitsInt 8 n = true := by
    rw [fitsInt_iff]
    omega
  rw [Datum.ofNumber, if_pos fits]
  split
  · have same : ((n : Int) % 2 ^ 32).toNat = n := by omega
    rw [Datum.castTo, same]
  · rw [Datum.castTo, if_pos (by omega), Int.toNat_natCast]

/-- A number is written as a cast of its digits, with a minus before it where it is
    negative. The least number is not read back, since its digits are those of a
    number that is too large. -/
theorem reads_integer {width : Nat} {type : FastpathArgType} {make : Int → Datum}
    (casts : ∀ n : Nat, (Datum.ofNumber n).castTo input type.denotes =
      if fitsInt width n then some (make n) else none)
    (negates : ∀ value : Int, (make value).negate =
      if fitsInt width (-value) then some (make (-value)) else none)
    {number : Int} (fits : fitsInt width number = true) :
    ∃ expr, Reads ((toString number).toList ++ "::".toList ++ type.sqlType.toList) expr ∧
      expr.eval input =
        if number = -(2 ^ (8 * width - 1) : Nat) then none else some (make number) := by
  rw [fitsInt_iff] at fits
  cases number with
  | ofNat n =>
    have small : fitsInt width n = true := fitsInt_iff.mpr fits
    have other : (Int.ofNat n) ≠ -(2 ^ (8 * width - 1) : Nat) := by
      have := Nat.two_pow_pos (8 * width - 1)
      rw [Int.ofNat_eq_natCast]
      omega
    have read := reads_number n type
    rw [← Nat.toList_repr] at read
    refine ⟨_, read, ?_⟩
    rw [eval_number, casts, if_pos small, if_neg other]
    rfl
  | negSucc n =>
    have read := reads_minus (n + 1) type
    rw [← toList_toString_negSucc] at read
    refine ⟨_, read, ?_⟩
    rw [Expr.eval, eval_number, casts]
    by_cases least : Int.negSucc n = -(2 ^ (8 * width - 1) : Nat)
    · have large : ¬fitsInt width (n + 1 : Nat) = true := by
        rw [fitsInt_iff]
        omega
      rw [if_pos least, if_neg large]
      rfl
    · have small : fitsInt width (n + 1 : Nat) = true := by
        rw [fitsInt_iff]
        omega
      have minus : fitsInt width (-(n + 1 : Nat)) = true := by
        rw [fitsInt_iff]
        omega
      rw [if_neg least, if_pos small]
      exact (negates _).trans (if_pos minus)

end Select

/-! ## Calls -/

variable {α : Type}

theorem mapError_ok_iff {ε δ : Type} {result : Except ε α} {f : ε → δ} {value : α} :
    result.mapError f = .ok value ↔ result = .ok value := by
  cases result <;> simp [Except.mapError]

section

variable (input : Select.SqlType → Text → Option Select.Datum)

/-- How an argument's text is read. -/
structure GivenArg.ReadAs (arg : GivenArg) (text : Text) (expr : Select.Expr) : Prop where
  reads : Select.Reads text expr
  denotes : expr.eval input = arg.datum input ↔ arg.isLeast = false

theorem signed_fits (width n : Nat) :
    Select.fitsInt width (BigEndian.signed width n) = true := by
  rw [Select.fitsInt_iff, BigEndian.signed]
  have low := BitVec.le_toInt (BitVec.ofNat (8 * width) n)
  have high := @BitVec.toInt_lt (8 * width) (BitVec.ofNat (8 * width) n)
  push_cast
  exact ⟨low, high⟩

theorem GivenArg.readAs_int {arg : GivenArg} {value : Bytes} {width : Nat} {make : Int → Select.Datum}
    (casts : ∀ n : Nat, (Select.Datum.ofNumber n).castTo input arg.type.denotes =
      if Select.fitsInt width n then some (make n) else none)
    (negates : ∀ number : Int, (make number).negate =
      if Select.fitsInt width (-number) then some (make (-number)) else none)
    (stands : arg.datum input = some (make (BigEndian.signed width (BigEndian.decode value))))
    (least : arg.isLeast =
      decide (BigEndian.signed width (BigEndian.decode value) = -(2 ^ (8 * width - 1) : Nat))) :
    ∃ expr, arg.ReadAs input ((toString (BigEndian.signed width (BigEndian.decode value))).toList ++
      "::".toList ++ arg.type.sqlType.toList) expr := by
  obtain ⟨expr, reads, evaluated⟩ :=
    Select.reads_integer input casts negates (signed_fits width (BigEndian.decode value))
  refine ⟨expr, reads, ?_⟩
  rw [evaluated, stands, least]
  split <;> simp_all

theorem GivenArg.readAs_binary {value : Bytes} {type : FastpathArgType} {text : Text}
    (written : binaryFunctionArgSql value type = .ok text) :
    ∃ expr, GivenArg.ReadAs input ⟨some value, type, some 1⟩ text expr := by
  cases type with
  | bytea =>
    cases written
    exact ⟨_, Select.reads_bytes value, by rw [Select.eval_bytes]; simp [datum, isLeast]⟩
  | int4 =>
    rw [binaryFunctionArgSql, readBeI32, readBe] at written
    split at written
    · cases written
      have read := @GivenArg.readAs_int input ⟨some value, .int4, some 1⟩ value 4 .int4
        (Select.castTo_int4 input) (fun _ => rfl) rfl (by simp [isLeast])
      simpa [FastpathArgType.sqlType] using read
    · cases written
  | int8 =>
    rw [binaryFunctionArgSql, readBeI64, readBe] at written
    split at written
    · cases written
      have read := @GivenArg.readAs_int input ⟨some value, .int8, some 1⟩ value 8 .int8
        (Select.castTo_int8 input) (fun _ => rfl) rfl (by simp [isLeast])
      simpa [FastpathArgType.sqlType] using read
    · cases written
  | oid =>
    rw [binaryFunctionArgSql, readBeU32, readBe] at written
    split at written
    · rename_i width
      cases written
      have small : BigEndian.decode value < 2 ^ 32 := by
        have := BigEndian.decode_lt value
        rw [width] at this
        omega
      have read := Select.reads_number (BigEndian.decode value) .oid
      rw [← Nat.toList_repr, append_assoc] at read
      refine ⟨_, read, ?_⟩
      rw [Select.eval_number, FastpathArgType.denotes, Select.castTo_oid input small]
      simp [datum, isLeast]
    · cases written

/-- An argument that is written is cut short by a NUL, or read. -/
theorem GivenArg.sql_reads {arg : GivenArg} {text : Text} (written : arg.sql = .ok text) :
    (arg.hasNul = true ∧ Select.Cut text) ∨
      (arg.hasNul = false ∧ ∃ expr, arg.ReadAs input text expr) := by
  obtain ⟨value, type, format⟩ := arg
  rw [sql] at written
  cases format with
  | none => cases written
  | some format =>
    have produced : functionArgSql value type format = .ok text := mapError_ok_iff.mp written
    cases value with
    | none =>
      cases produced
      exact .inr ⟨rfl, _, Select.reads_null type, by
        rw [Select.eval_null]; simp [datum, isLeast]⟩
    | some value =>
      rw [functionArgSql] at produced
      split at produced
      · rename_i binary
        subst binary
        exact .inr ⟨by simp [hasNul], readAs_binary input produced⟩
      · split at produced
        · cases produced
        · rename_i notBinary isText
          have textual : format = 0 := not_not.mp isText
          subst textual
          rw [fromUtf8] at produced
          cases valid : Copy.utf8Error value with
          | some error => simp [valid] at produced
          | none =>
            rw [valid] at produced
            cases produced
            by_cases nul : '\x00' ∈ utf8Chars value
            · rw [append_assoc]
              exact .inl ⟨by simp [hasNul, nul], Select.cut_text nul _⟩
            · refine .inr ⟨by simp [hasNul, nul], _, Select.reads_text nul type, ?_⟩
              rw [Select.eval_text]
              cases type <;> simp [datum, isLeast]

/-- The query is read as one call of the function, with one argument expression for
    each argument that denotes its value. -/
def Faithful (call : FunctionCall) (function : FastpathFunction) (sql : Text) : Prop :=
  ∃ exprs, Select.readSelect sql = some (.call ["pg_catalog".toList, function.name.toList] exprs) ∧
    exprs.map (Select.Expr.eval input) = (call.given function).map (GivenArg.datum input)

end

theorem fastpathFunctions_plain : ∀ function ∈ fastpathFunctions,
    Select.PlainName function.name ∧ function.args ≠ [] := by
  intro function mem
  simp only [fastpathFunctions, mem_cons, not_mem_nil, or_false] at mem
  rcases mem with rfl | rfl | rfl | rfl | rfl | rfl | rfl | rfl | rfl | rfl | rfl | rfl | rfl <;>
    exact ⟨⟨by decide, rfl⟩, by decide⟩

/-- The argument has a format that its value fits. -/
def GivenArg.isAccepted (arg : GivenArg) : Bool :=
  match arg.value, arg.format with
  | none, format => format.isSome
  | some value, some 0 => Copy.utf8Error value = none
  | some value, some 1 => match arg.type with
      | .bytea => true
      | .int4 | .oid => value.length = 4
      | .int8 => value.length = 8
  | some _, _ => false

/-- The call is one that the server answers by a query. -/
structure FunctionCall.Accepts (call : FunctionCall) (function : FastpathFunction) : Prop where
  known : fastpathFunctions.find? (fun function => function.oid = call.functionId) = some function
  args : call.args.length = function.args.length
  formats : ¬(1 < call.argFormatCodes.length ∧ call.argFormatCodes.length ≠ call.args.length)
  result : call.resultFormatCode = 1
  accepted : ∀ arg ∈ call.given function, arg.isAccepted = true

theorem readBe_ok_iff {width : Nat} {type : String} {number : Nat → α} {value : Bytes} :
    (∃ result, readBe width type number value = .ok result) ↔ value.length = width := by
  rw [readBe]
  split <;> simp_all

theorem map_ok_iff {ε β : Type} {result : Except ε α} {f : α → β} :
    (∃ value, result.map f = .ok value) ↔ ∃ value, result = .ok value := by
  cases result <;> simp [Except.map]

theorem GivenArg.sql_ok_iff (arg : GivenArg) :
    (∃ text, arg.sql = .ok text) ↔ arg.isAccepted = true := by
  obtain ⟨value, type, format⟩ := arg
  cases format with
  | none => cases value <;> simp [sql, isAccepted]
  | some format =>
    have same : (∃ text, sql ⟨value, type, some format⟩ = .ok text) ↔
        ∃ text, functionArgSql value type format = .ok text := by
      exact exists_congr fun text => mapError_ok_iff
    rw [same]
    cases value with
    | none => simp [functionArgSql, isAccepted]
    | some value =>
      rw [functionArgSql]
      by_cases binary : format = 1
      · subst binary
        rw [if_pos rfl]
        cases type with
        | bytea => simp [binaryFunctionArgSql, isAccepted]
        | int4 => exact (map_ok_iff.trans readBe_ok_iff).trans decide_eq_true_iff.symm
        | int8 => exact (map_ok_iff.trans readBe_ok_iff).trans decide_eq_true_iff.symm
        | oid => exact (map_ok_iff.trans readBe_ok_iff).trans decide_eq_true_iff.symm
      · rw [if_neg binary]
        by_cases textual : format = 0
        · subst textual
          cases valid : Copy.utf8Error value <;> simp [fromUtf8, isAccepted, valid]
        · rw [if_pos textual]
          simp [isAccepted, binary, textual]

theorem mapM_ok_iff {ε β : Type} {f : α → Except ε β} (items : List α) :
    ∀ {results : List β}, items.mapM f = .ok results ↔
      List.Forall₂ (fun item result => f item = .ok result) items results := by
  induction items with
  | nil => intro results; simp [pure, Except.pure, eq_comm]
  | cons item items ih =>
    intro results
    rw [mapM_cons, forall₂_cons_left_iff]
    cases first : f item with
    | error error => simp [bind, Except.bind]
    | ok result =>
      cases rest : items.mapM f with
      | error error => 
        have none := fun more => (not_congr (@ih more)).mp (by simp [rest])
        simp [bind, Except.bind, none]
      | ok more =>
        simp [bind, Except.bind, pure, Except.pure, ← ih, rest, eq_comm]

variable {function : FastpathFunction} {call : FunctionCall}

theorem fastpathFunction_ok_iff {oid : Nat} :
    fastpathFunction oid = .ok function ↔
      fastpathFunctions.find? (fun function => function.oid = oid) = some function := by
  rw [fastpathFunction]
  cases fastpathFunctions.find? fun function => function.oid = oid <;> simp

/-- What a call becomes that passes the checks before its arguments. -/
theorem fastpathSql_eq (known : fastpathFunction call.functionId = .ok function)
    (args : call.args.length = function.args.length)
    (formats : ¬(1 < call.argFormatCodes.length ∧ call.argFormatCodes.length ≠ call.args.length))
    (result : call.resultFormatCode = 1) :
    fastpathSql call = ((call.given function).mapM GivenArg.sql).map fun pieces =>
      Select.callStart function.name ++ Select.argumentList pieces := by
  have found : (fastpathFunction call.functionId).mapError Stop.error = .ok function :=
    mapError_ok_iff.mpr known
  rw [fastpathSql, found]
  simp only [bind, Except.bind, if_neg (not_not.mpr args), if_neg formats,
    if_neg (not_not.mpr result), pure, Except.pure]
  cases (call.given function).mapM GivenArg.sql <;> rfl

theorem checked_of_ok {sql : Text} (ok : fastpathSql call = .ok sql) :
    ∃ function, fastpathFunction call.functionId = .ok function ∧
      call.args.length = function.args.length ∧
      ¬(1 < call.argFormatCodes.length ∧ call.argFormatCodes.length ≠ call.args.length) ∧
      call.resultFormatCode = 1 := by
  rw [fastpathSql] at ok
  cases known : fastpathFunction call.functionId with
  | error error => simp [known, Except.mapError, bind, Except.bind] at ok
  | ok function =>
    simp only [known, Except.mapError, bind, Except.bind] at ok
    split at ok
    · cases ok
    · rename_i args
      split at ok
      · cases ok
      · rename_i formats
        split at ok
        · cases ok
        · rename_i result
          exact ⟨function, rfl, not_not.mp args, formats, not_not.mp result⟩

theorem exists_forall₂_iff {β : Type} {R : α → β → Prop} (items : List α) :
    (∃ results, List.Forall₂ R items results) ↔ ∀ item ∈ items, ∃ result, R item result := by
  induction items with
  | nil => simp
  | cons item items ih =>
    rw [forall_mem_cons, ← ih]
    constructor
    · rintro ⟨_, first | ⟨here, more⟩⟩
      exact ⟨⟨_, here⟩, _, more⟩
    · rintro ⟨⟨result, here⟩, results, more⟩
      exact ⟨result :: results, .cons here more⟩

theorem FunctionCall.Accepts.sql (accepts : call.Accepts function) : ∃ pieces,
      List.Forall₂ (fun arg piece => arg.sql = .ok piece) (call.given function) pieces ∧
        fastpathSql call = .ok (Select.callStart function.name ++ Select.argumentList pieces) := by
  obtain ⟨pieces, written⟩ := (exists_forall₂_iff (call.given function)).mpr
    fun arg mem => arg.sql_ok_iff.mpr (accepts.accepted arg mem)
  refine ⟨pieces, written, ?_⟩
  rw [fastpathSql_eq (fastpathFunction_ok_iff.mpr accepts.known) accepts.args accepts.formats
    accepts.result, (mapM_ok_iff _).mpr written]
  rfl

theorem accepts_of_ok {sql : Text} (ok : fastpathSql call = .ok sql) :
    ∃ function, call.Accepts function := by
  obtain ⟨function, known, args, formats, result⟩ := checked_of_ok ok
  refine ⟨function, fastpathFunction_ok_iff.mp known, args, formats, result, fun arg mem => ?_⟩
  rw [fastpathSql_eq known args formats result] at ok
  obtain ⟨pieces, written⟩ := map_ok_iff.mp ⟨sql, ok⟩
  rw [mapM_ok_iff] at written
  exact arg.sql_ok_iff.mp ((exists_forall₂_iff _).mp ⟨pieces, written⟩ arg mem)

section

variable (input : Select.SqlType → Text → Option Select.Datum) {args : List GivenArg}
  {pieces : List Text}

theorem given_ne_nil (accepts : call.Accepts function) : call.given function ≠ [] := by
  have full := (fastpathFunctions_plain function (mem_of_find?_eq_some accepts.known)).2
  intro none
  have length := congrArg List.length none
  rw [FunctionCall.given, length_mapIdx, length_zip, accepts.args, Nat.min_self] at length
  exact full (eq_nil_of_length_eq_zero length)

/-- Without a NUL in any argument, the pieces are read one by one. -/
theorem reads_pieces
    (written : List.Forall₂ (fun arg piece => GivenArg.sql arg = .ok piece) args pieces)
    (noNul : ∀ arg ∈ args, arg.hasNul = false) :
    ∃ exprs, List.Forall₂ Select.Reads pieces exprs ∧
      (exprs.map (Select.Expr.eval input) = args.map (GivenArg.datum input) ↔
        ∀ arg ∈ args, arg.isLeast = false) := by
  induction written with
  | nil => exact ⟨[], .nil, by simp⟩
  | @cons arg piece args pieces here more ih =>
    obtain ⟨exprs, reads, values⟩ := ih fun arg mem => noNul arg (mem_cons_of_mem _ mem)
    rcases GivenArg.sql_reads input here with ⟨nul, -⟩ | ⟨-, expr, read⟩
    · simp [noNul arg mem_cons_self] at nul
    · refine ⟨expr :: exprs, .cons read.reads reads, ?_⟩
      rw [map_cons, map_cons, cons.injEq, read.denotes, values,
        forall_mem_cons]

/-- With a NUL in some argument, one of the pieces is cut short. -/
theorem cut_pieces
    (written : List.Forall₂ (fun arg piece => GivenArg.sql arg = .ok piece) args pieces) :
    (∀ piece ∈ pieces, Select.Cut piece ∨ ∃ expr, Select.Reads piece expr) ∧
      ((∃ arg ∈ args, arg.hasNul = true) → ∃ piece ∈ pieces, Select.Cut piece) := by
  induction written with
  | nil => simp
  | @cons arg piece args pieces here more ih =>
    simp only [mem_cons, forall_eq_or_imp, exists_eq_or_imp]
    rcases GivenArg.sql_reads (fun _ _ => none) here with ⟨-, cut⟩ | ⟨noNul, expr, read⟩
    · exact ⟨⟨.inl cut, ih.1⟩, fun _ => .inl cut⟩
    · refine ⟨⟨.inr ⟨expr, read.reads⟩, ih.1⟩, ?_⟩
      rintro (nul | later)
      · simp [noNul] at nul
      · exact .inr (ih.2 later)

theorem faithful_iff {sql : Text} (accepts : call.Accepts function)
    (ok : fastpathSql call = .ok sql) :
    Faithful input call function sql ↔
      ∀ arg ∈ call.given function, arg.isLeast = false ∧ arg.hasNul = false := by
  obtain ⟨pieces, written, produced⟩ := accepts.sql
  have plain := (fastpathFunctions_plain function (mem_of_find?_eq_some accepts.known)).1
  obtain rfl : _ = sql := Except.ok.inj (produced.symm.trans ok)
  by_cases noNul : ∀ arg ∈ call.given function, arg.hasNul = false
  · obtain ⟨exprs, reads, values⟩ := reads_pieces input written noNul
    have full : pieces ≠ [] := by
      rintro rfl
      exact given_ne_nil accepts (forall₂_nil_right_iff.mp written)
    rw [Faithful, Select.readSelect_of_reads plain full reads]
    constructor
    · rintro ⟨found, same, equal⟩
      cases same
      exact fun arg mem => ⟨values.mp equal arg mem, noNul arg mem⟩
    · exact fun fine => ⟨exprs, rfl, values.mpr fun arg mem => (fine arg mem).1⟩
  · have cut : Select.readSelect
        (Select.callStart function.name ++ Select.argumentList pieces) = none := by
      obtain ⟨all, some⟩ := cut_pieces written
      refine Select.readSelect_of_cut plain all (some ?_)
      simpa using noNul
    rw [Faithful, cut]
    constructor
    · rintro ⟨exprs, same, -⟩
      cases same
    · exact fun fine => absurd (fun arg mem => (fine arg mem).2) noNul

end

/-! ## Bytea texts -/

def asciiByte (c : Char) : UInt8 := UInt8.ofNat c.toNat

/-- The text of a bytea with `bytea_output` set to `hex`. -/
def byteaHexOut (bytes : Bytes) : Bytes := 92 :: 120 :: (hexEncode bytes).map asciiByte

def octalDigit (value : UInt8) : UInt8 := 48 + (value &&& 7)

def escapeByte (byte : UInt8) : Bytes :=
  if byte = backslash then [backslash, backslash]
  else if byte < 0x20 ∨ 0x7E < byte then
    [backslash, octalDigit (byte >>> 6), octalDigit (byte >>> 3), octalDigit byte]
  else [byte]

/-- The text of a bytea with `bytea_output` set to `escape`. -/
def byteaEscapeOut (bytes : Bytes) : Bytes := bytes.flatMap escapeByte

variable (byte : UInt8)

theorem byte_cases {P : UInt8 → Prop} (all : ∀ n : Fin 256, P (UInt8.ofNat n.val)) (byte : UInt8) :
    P byte := by
  have here := all ⟨byte.toNat, byte.toNat_lt⟩
  rwa [UInt8.ofNat_toNat] at here

theorem hexPairs_byte (rest : Bytes) :
    hexPairs ((hexByte byte).map asciiByte ++ rest) = (hexPairs rest).map (byte :: ·) := by
  have digit : ∀ n : Nat, n < 16 →
      hexValue (asciiByte (hexDigits.getD n '0')) = .ok (UInt8.ofNat n) := by
    intro n small
    interval_cases n <;> rfl
  have whole : UInt8.ofNat (byte >>> 4).toNat <<< 4 ||| UInt8.ofNat (byte &&& 0x0F).toNat = byte := by
    revert byte
    exact byte_cases (by decide +kernel)
  rw [hexByte, map_cons, map_cons, map_nil, cons_append, cons_append,
    nil_append, hexPairs, digit _ (Select.high_lt byte), digit _ (Select.low_lt byte)]
  cases hexPairs rest with
  | error => rfl
  | ok more => exact congrArg (fun first => Except.ok (first :: more)) whole

theorem parseByteaText_hex (bytes : Bytes) : parseByteaText (byteaHexOut bytes) = .ok bytes := by
  have even : ((hexEncode bytes).map asciiByte).length = 2 * bytes.length := by
    rw [length_map, hexEncode, length_flatMap]
    simp [hexByte, Nat.mul_comm]
  have pairs : hexPairs ((hexEncode bytes).map asciiByte) = .ok bytes := by
    clear even
    induction bytes with
    | nil => rfl
    | cons byte bytes ih =>
      rw [hexEncode, flatMap_cons, map_append, hexPairs_byte, ← hexEncode, ih]
      rfl
  rw [byteaHexOut, parseByteaText, parseHexBytea, even, if_neg (by omega), pairs]

theorem isOctalDigit_octalDigit (value : UInt8) : isOctalDigit (octalDigit value) = true := by
  revert value
  exact byte_cases (by decide +kernel)

theorem octal_value :
    (octalDigit (byte >>> 6) - 48) <<< 6 ||| (octalDigit (byte >>> 3) - 48) <<< 3 |||
      (octalDigit byte - 48) = byte := by
  revert byte
  exact byte_cases (by decide +kernel)

theorem parseEscapeBytea_byte (rest : Bytes) :
    parseEscapeBytea (escapeByte byte ++ rest) = (parseEscapeBytea rest).map (byte :: ·) := by
  rw [escapeByte]
  split
  · rename_i slash
    subst slash
    rw [parseEscapeBytea.eq_def]
    rfl
  · rename_i notSlash
    split
    · rw [parseEscapeBytea.eq_def]
      simp only [cons_append, nil_append, isOctalDigit_octalDigit, and_self, if_true,
        octal_value, ne_eq, not_true_eq_false, if_false]
    · rw [parseEscapeBytea.eq_def]
      exact if_pos notSlash

theorem escapeByte_not_hex (rest hex : Bytes) :
    escapeByte byte ++ rest ≠ 92 :: 120 :: hex := by
  rw [escapeByte]
  split
  · simp [backslash]
  · rename_i notSlash
    split
    · intro same
      have digit := isOctalDigit_octalDigit (byte >>> 6)
      simp only [cons_append, cons.injEq] at same
      rw [same.2.1] at digit
      exact absurd digit (by decide)
    · intro same
      exact notSlash (cons.inj same).1

theorem parseByteaText_escape (bytes : Bytes) : parseByteaText (byteaEscapeOut bytes) = .ok bytes := by
  have escaped : parseByteaText (byteaEscapeOut bytes) = parseEscapeBytea (byteaEscapeOut bytes) := by
    rw [parseByteaText]
    intro hex same
    cases bytes with
    | nil => cases same
    | cons byte bytes => exact escapeByte_not_hex byte _ hex same
  rw [escaped, byteaEscapeOut]
  clear escaped
  induction bytes with
  | nil => rfl
  | cons byte bytes ih =>
    rw [flatMap_cons, parseEscapeBytea_byte, ih]
    rfl

/-! ## The whole path -/

/-- Every call that fits its function becomes a query. The query denotes the
    arguments unless one of them is the least number of its type or a text with a
    NUL. Both formats of a bytea are read back. -/
theorem fastpathSql_faithful_iff (input : Select.SqlType → Text → Option Select.Datum)
    (call : FunctionCall) (bytes : Bytes) :
    ((∃ sql, fastpathSql call = .ok sql) ↔ ∃ function, call.Accepts function) ∧
      (∀ function sql, call.Accepts function → fastpathSql call = .ok sql →
        (Faithful input call function sql ↔
          ∀ arg ∈ call.given function, arg.isLeast = false ∧ arg.hasNul = false)) ∧
      parseByteaText (byteaHexOut bytes) = .ok bytes ∧
      parseByteaText (byteaEscapeOut bytes) = .ok bytes := by
  refine ⟨⟨?_, ?_⟩, fun function sql accepts ok => faithful_iff input accepts ok,
    parseByteaText_hex bytes, parseByteaText_escape bytes⟩
  · rintro ⟨sql, ok⟩
    exact accepts_of_ok ok
  · rintro ⟨function, accepts⟩
    obtain ⟨pieces, -, ok⟩ := accepts.sql
    exact ⟨_, ok⟩

/-- `lo_close` of the least descriptor, in binary format. -/
def closeLeast : FunctionCall := ⟨953, [1], [some [0x80, 0, 0, 0]], 1⟩

theorem closeLeast_not_faithful :
    fastpathSql closeLeast = .ok "SELECT pg_catalog.lo_close(-2147483648::int4)".toList ∧
      ∀ input, ¬Faithful input closeLeast ⟨953, "lo_close", loCloseArgs⟩
        "SELECT pg_catalog.lo_close(-2147483648::int4)".toList := by
  have written :
      fastpathSql closeLeast = .ok "SELECT pg_catalog.lo_close(-2147483648::int4)".toList := by
    rfl
  have accepts : closeLeast.Accepts ⟨953, "lo_close", loCloseArgs⟩ :=
    ⟨by decide, by decide, by decide, by decide, by decide⟩
  refine ⟨written, fun input faithful => ?_⟩
  have fine := (faithful_iff input accepts written).mp faithful
  exact absurd fine (by decide)

end FastPg.Wire
