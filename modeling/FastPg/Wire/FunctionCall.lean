import FastPg.Lib.BigEndian

/-! # Function calls of the client

The decoder of FunctionCall messages waits for a whole packet, cuts it off the
buffer and reads it. The counts in a packet are signed, and the decoder takes
them for sizes: a negative count becomes a size that no vector can have, and the
thread panics. Everything else is refused or read as it was written.
-/

namespace FastPg.Wire

open List

abbrev Bytes := List UInt8

structure FunctionCall where
  functionId : Nat
  argFormatCodes : List Int
  args : List (Option Bytes)
  resultFormatCode : Int
  deriving DecidableEq, Repr

inductive WireError where
  | invalidMessageType (messageType : UInt8)
  | user (severity code message : String)
  deriving DecidableEq, Repr

def protocolError (message : String) : WireError := .user "ERROR" "08P01" message

/-- Why reading a packet ends early. -/
inductive Stop where
  | error (error : WireError)
  | panic
  deriving DecidableEq, Repr

/-- What is left of a packet, and how many bytes were allocated for what was read. -/
structure Packet where
  rest : Bytes
  allocated : Nat
  deriving DecidableEq, Repr

abbrev Read := EStateM Stop Packet

namespace FunctionCall

def messageType : UInt8 := 70

/-- The common part of `read_i16`, `read_i32` and `read_u32`. -/
def readWord {α : Type} (width : Nat) (value : Nat → α) : Read α := do
  let packet ← get
  if packet.rest.length < width then
    throw (.error (protocolError "truncated FunctionCall message"))
  else
    set { packet with rest := packet.rest.drop width }
    return value (BigEndian.decode (packet.rest.take width))

def readI16 : Read Int := readWord 2 (BigEndian.signed 2)

def readI32 : Read Int := readWord 4 (BigEndian.signed 4)

def readU32 : Read Nat := readWord 4 id

/-- A signed number taken `as usize`. -/
def asUsize (n : Int) : Nat := BigEndian.word 8 n

/-- `Vec::with_capacity` for elements of `size` bytes. -/
def withCapacity (count size : Nat) : Read Unit := do
  if 2 ^ 63 ≤ count * size then throw .panic
  else modify fun packet => { packet with allocated := packet.allocated + count * size }

def readMany {α : Type} (read : Read α) : Nat → Read (List α)
  | 0 => return []
  | count + 1 => do
      let first ← read
      let rest ← readMany read count
      return first :: rest

def readArg : Read (Option Bytes) := do
  let argLen ← readI32
  if argLen = -1 then return none
  else if argLen < 0 then
    throw (.error (protocolError s!"invalid argument length in FunctionCall message: {argLen}"))
  else
    let packet ← get
    if packet.rest.length < argLen.toNat then
      throw (.error (protocolError "truncated argument in FunctionCall message"))
    else
      set (Packet.mk (packet.rest.drop argLen.toNat) (packet.allocated + argLen.toNat))
      return some (packet.rest.take argLen.toNat)

/-- The second half of `decode`, from the number of arguments on. An argument
    takes twenty-four bytes of memory besides its own bytes. -/
def readArgs (functionId : Nat) (argFormatCodes : List Int) : Read FunctionCall := do
  let numArgs ← readI16
  withCapacity (asUsize numArgs) 24
  let args ← readMany readArg (asUsize numArgs)
  let resultFormatCode ← readI16
  let packet ← get
  if packet.rest ≠ [] then throw (.error (protocolError "trailing data in FunctionCall message"))
  else return ⟨functionId, argFormatCodes, args, resultFormatCode⟩

/-- What `decode` does with a packet that it has cut off. A format takes two
    bytes of memory. -/
def readCall : Read FunctionCall := do
  let functionId ← readU32
  let numArgFormats ← readI16
  withCapacity (asUsize numArgFormats) 2
  let argFormatCodes ← readMany readI16 (asUsize numArgFormats)
  readArgs functionId argFormatCodes

inductive Result where
  | nothing
  | call (call : FunctionCall)
  | stopped (stop : Stop)
  deriving DecidableEq, Repr

/-- The result of decoding, the buffer after it and the memory it took. -/
structure Decoded where
  result : Result
  rest : Bytes
  allocated : Nat
  deriving DecidableEq, Repr

/-- The length that a packet states, which counts itself but not the type. -/
def statedLength (src : Bytes) : Int :=
  BigEndian.signed 4 (BigEndian.decode ((src.drop 1).take 4))

def packetLength (src : Bytes) : Nat := 1 + (statedLength src).toNat

/-- The packet without its type and length. -/
def body (src : Bytes) : Bytes := (src.take (packetLength src)).drop 5

def decode (src : Bytes) : Decoded :=
  if src.length < 5 then ⟨.nothing, src, 0⟩
  else if statedLength src < 4 then ⟨.stopped (.error (.invalidMessageType messageType)), src, 0⟩
  else if src.length < packetLength src then ⟨.nothing, src, 0⟩
  else match readCall ⟨body src, 0⟩ with
    | .ok call packet => ⟨.call call, src.drop (packetLength src), packet.allocated⟩
    | .error stop packet => ⟨.stopped stop, src.drop (packetLength src), packet.allocated⟩

def argFormatCode (call : FunctionCall) (index : Nat) : Option Int :=
  match call.argFormatCodes with
  | [] => some 0
  | [format] => some format
  | formats => formats[index]?

/-- The decoder is called whenever more bytes have arrived, until it answers. -/
def decodeArriving (buffer : Bytes) : List Bytes → Decoded
  | [] => decode buffer
  | piece :: later =>
    match decode (buffer ++ piece) with
    | ⟨.nothing, _, _⟩ => decodeArriving (buffer ++ piece) later
    | ⟨result, rest, allocated⟩ => ⟨result, rest ++ later.flatten, allocated⟩

/-! ## Reading -/

section Reading

variable {α β : Type} {packet : Packet} {next : α → Read β}

theorem bind_ok {read : Read α} {value : α} {after : Packet} (done : read packet = .ok value after) :
    (read >>= next) packet = next value after := by
  change EStateM.bind read next packet = _
  rw [EStateM.bind, done]

theorem bind_error {read : Read α} {stop : Stop} {after : Packet}
    (failed : read packet = .error stop after) : (read >>= next) packet = .error stop after := by
  change EStateM.bind read next packet = _
  rw [EStateM.bind, failed]

def truncated : Stop := .error (protocolError "truncated FunctionCall message")

theorem get_ok : (get : Read Packet) packet = .ok packet packet := rfl

theorem readWord_short {width : Nat} (value : Nat → α) (short : packet.rest.length < width) :
    readWord width value packet = .error truncated packet := by
  rw [readWord, bind_ok get_ok, if_pos short]
  rfl

theorem readWord_full {width : Nat} (value : Nat → α) (full : width ≤ packet.rest.length) :
    readWord width value packet = .ok (value (BigEndian.decode (packet.rest.take width)))
      { packet with rest := packet.rest.drop width } := by
  rw [readWord, bind_ok get_ok, if_neg (Nat.not_lt.mpr full)]
  rfl

theorem withCapacity_ok {count size : Nat} (small : count * size < 2 ^ 63) :
    withCapacity count size packet =
      .ok () { packet with allocated := packet.allocated + count * size } := by
  rw [withCapacity, if_neg (Nat.not_le.mpr small)]
  rfl

theorem withCapacity_panic {count size : Nat} (large : 2 ^ 63 ≤ count * size) :
    withCapacity count size packet = .error .panic packet := by
  rw [withCapacity, if_pos large]
  rfl

/-- A reader that never panics and allocates at most the bytes it takes. -/
def Tame (read : Read α) : Prop :=
  ∀ packet, (∃ value after, read packet = .ok value after ∧
      after.allocated + after.rest.length ≤ packet.allocated + packet.rest.length) ∨
    ∃ error after, read packet = .error (.error error) after ∧
      after.allocated ≤ packet.allocated + packet.rest.length

namespace Tame

theorem readWord (width : Nat) (value : Nat → α) : Tame (FunctionCall.readWord width value) := by
  intro packet
  by_cases short : packet.rest.length < width
  · exact .inr ⟨_, _, readWord_short value short, Nat.le_add_right ..⟩
  · exact .inl ⟨_, _, readWord_full value (Nat.not_lt.mp short), by simp⟩

theorem bind {read : Read α} (first : Tame read)
    (second : ∀ value, Tame (next value)) : Tame (read >>= next) := by
  intro packet
  rcases first packet with ⟨value, between, done, spent⟩ | ⟨error, after, failed, spent⟩
  · rw [bind_ok done]
    rcases second value between with ⟨result, after, done', spent'⟩ | ⟨error, after, failed', spent'⟩
    · exact .inl ⟨result, after, done', spent'.trans spent⟩
    · exact .inr ⟨error, after, failed', spent'.trans spent⟩
  · exact .inr ⟨error, after, bind_error failed, spent⟩

theorem pure (value : α) : Tame (pure value : Read α) :=
  fun packet => .inl ⟨value, packet, rfl, le_rfl⟩

theorem readArg : Tame FunctionCall.readArg := by
  refine (readWord 4 (BigEndian.signed 4)).bind fun argLen => ?_
  split
  · exact pure none
  · split
    · exact fun packet => .inr ⟨_, packet, rfl, Nat.le_add_right ..⟩
    · intro packet
      rw [bind_ok get_ok]
      split
      · exact .inr ⟨_, packet, rfl, Nat.le_add_right ..⟩
      · refine .inl ⟨_, _, rfl, ?_⟩
        simp only [length_drop]
        omega

theorem readMany {read : Read α} (each : Tame read) (count : Nat) :
    Tame (FunctionCall.readMany read count) := by
  induction count with
  | zero => exact pure []
  | succ count ih => exact each.bind fun first => ih.bind fun rest => pure (first :: rest)

end Tame

/-- Words are read one after the other where there are enough bytes. -/
theorem readMany_words {width : Nat} (value : Nat → α) (count : Nat)
    (full : width * count ≤ packet.rest.length) :
    ∃ values, values.length = count ∧ readMany (readWord width value) count packet =
      .ok values { packet with rest := packet.rest.drop (width * count) } := by
  induction count generalizing packet with
  | zero => exact ⟨[], rfl, rfl⟩
  | succ count ih =>
    rw [Nat.mul_succ] at full
    obtain ⟨values, length, read⟩ := @ih { packet with rest := packet.rest.drop width }
      (by rw [length_drop]; omega)
    refine ⟨value (BigEndian.decode (packet.rest.take width)) :: values,
      congrArg Nat.succ length, ?_⟩
    rw [readMany, bind_ok (readWord_full value (by omega)), bind_ok read]
    dsimp only
    rw [drop_drop, Nat.mul_succ, Nat.add_comm]
    rfl

theorem readMany_words_short {width : Nat} (value : Nat → α) (count : Nat)
    (short : packet.rest.length < width * count) :
    ∃ after, readMany (readWord width value) count packet = .error truncated after ∧
      after.allocated = packet.allocated := by
  induction count generalizing packet with
  | zero => omega
  | succ count ih =>
    rw [readMany]
    by_cases first : packet.rest.length < width
    · exact ⟨packet, bind_error (readWord_short value first), rfl⟩
    · rw [Nat.mul_succ] at short
      obtain ⟨after, failed, spent⟩ := @ih { packet with rest := packet.rest.drop width }
        (by rw [length_drop]; omega)
      refine ⟨after, ?_, spent⟩
      rw [bind_ok (readWord_full value (Nat.not_lt.mp first)), bind_error failed]

end Reading

/-! ## Counts -/

/-- The count that stands at a place of a packet. -/
def countAt (body : Bytes) (offset : Nat) : Int :=
  BigEndian.signed 2 (BigEndian.decode ((body.drop offset).take 2))

/-- Where the number of arguments stands, after the function, the number of
    formats and the formats. -/
def argCountOffset (body : Bytes) : Nat := 6 + 2 * (countAt body 4).toNat

/-- Whether a packet states a negative number of formats, or of arguments. -/
def negativeCount (body : Bytes) : Bool :=
  6 ≤ body.length &&
    (countAt body 4 < 0 ||
      (argCountOffset body + 2 ≤ body.length && countAt body (argCountOffset body) < 0))

theorem countAt_bounds (body : Bytes) (offset : Nat) :
    -2 ^ 15 ≤ countAt body offset ∧ countAt body offset < 2 ^ 15 :=
  ⟨BitVec.le_toInt _, BitVec.toInt_lt⟩

theorem asUsize_of_nonneg {n : Int} (nonneg : 0 ≤ n) (small : n < 2 ^ 15) : asUsize n = n.toNat := by
  rw [asUsize, BigEndian.word, BitVec.toNat_ofInt]
  omega

theorem asUsize_of_neg {n : Int} (negative : n < 0) (low : -2 ^ 15 ≤ n) : 2 ^ 63 ≤ asUsize n := by
  rw [asUsize, BigEndian.word, BitVec.toNat_ofInt]
  omega

/-- A reader that does not panic, and how much it may allocate. -/
def EndsWithin (limit : Nat) (outcome : EStateM.Result Stop Packet FunctionCall) : Prop :=
  (∃ call after, outcome = .ok call after ∧ after.allocated ≤ limit) ∨
    ∃ error after, outcome = .error (.error error) after ∧ after.allocated ≤ limit

theorem Tame.endsWithin {read : Read FunctionCall} (tame : Tame read) {packet : Packet}
    {limit : Nat} (enough : packet.allocated + packet.rest.length ≤ limit) :
    EndsWithin limit (read packet) := by
  rcases tame packet with ⟨call, after, done, spent⟩ | ⟨error, after, failed, spent⟩
  · exact .inl ⟨call, after, done, by omega⟩
  · exact .inr ⟨error, after, failed, by omega⟩

theorem readArgs_panics (functionId : Nat) (argFormatCodes : List Int) {packet : Packet}
    (full : 2 ≤ packet.rest.length) (negative : countAt packet.rest 0 < 0) :
    ∃ after, readArgs functionId argFormatCodes packet = .error .panic after := by
  have large := asUsize_of_neg negative (countAt_bounds packet.rest 0).1
  rw [readArgs, readI16, bind_ok (readWord_full _ full)]
  exact ⟨_, bind_error (withCapacity_panic (by change _ ≤ asUsize (countAt packet.rest 0) * 24; omega))⟩

theorem readArgs_ends (functionId : Nat) (argFormatCodes : List Int) {packet : Packet}
    (counted : 2 ≤ packet.rest.length → 0 ≤ countAt packet.rest 0) :
    EndsWithin (packet.allocated + packet.rest.length + 2 ^ 20)
      (readArgs functionId argFormatCodes packet) := by
  rw [readArgs, readI16]
  by_cases short : packet.rest.length < 2
  · rw [bind_error (readWord_short _ short)]
    exact .inr ⟨_, packet, rfl, by omega⟩
  · have nonneg := counted (Nat.not_lt.mp short)
    have small := (countAt_bounds packet.rest 0).2
    have count := asUsize_of_nonneg nonneg small
    rw [bind_ok (readWord_full _ (Nat.not_lt.mp short))]
    change EndsWithin _ ((withCapacity (asUsize (countAt packet.rest 0)) 24 >>= _) _)
    rw [bind_ok (withCapacity_ok (by omega))]
    refine Tame.endsWithin ?_ ?_
    · refine (Tame.readArg.readMany _).bind fun args => (Tame.readWord 2 _).bind fun format => ?_
      intro packet
      rw [bind_ok get_ok]
      split
      · exact .inr ⟨_, packet, rfl, Nat.le_add_right ..⟩
      · exact Tame.pure _ packet
    · simp only [length_drop]
      omega

/-- How reading a packet ends, by its counts. -/
theorem readCall_ends (body : Bytes) :
    (negativeCount body = true → ∃ after, readCall ⟨body, 0⟩ = .error .panic after) ∧
      (negativeCount body = false →
        EndsWithin (body.length + 2 ^ 16 + 2 ^ 20) (readCall ⟨body, 0⟩)) := by
  rw [readCall, readU32, readI16]
  by_cases short : body.length < 6
  · refine ⟨fun negative => by simp [negativeCount, Nat.not_le.mpr short] at negative, fun _ => ?_⟩
    by_cases first : body.length < 4
    · rw [bind_error (readWord_short _ first)]
      exact .inr ⟨_, _, rfl, Nat.zero_le _⟩
    · rw [bind_ok (readWord_full _ (Nat.not_lt.mp first)),
        bind_error (readWord_short _ (by rw [length_drop]; dsimp only; omega))]
      exact .inr ⟨_, _, rfl, Nat.zero_le _⟩
  · have full : 6 ≤ body.length := Nat.not_lt.mp short
    have bounds := countAt_bounds body 4
    rw [bind_ok (readWord_full _ (show 4 ≤ body.length by omega)),
      bind_ok (readWord_full _ (show 2 ≤ (body.drop 4).length by rw [length_drop]; omega))]
    have first : BigEndian.signed 2 (BigEndian.decode ((body.drop 4).take 2)) = countAt body 4 := rfl
    dsimp only
    rw [first]
    by_cases negative : countAt body 4 < 0
    · have large := asUsize_of_neg negative bounds.1
      refine ⟨fun _ => ⟨_, bind_error (withCapacity_panic (by omega))⟩, fun counted => ?_⟩
      simp [negativeCount, full, negative] at counted
    · have count := asUsize_of_nonneg (Int.not_lt.mp negative) bounds.2
      have place : argCountOffset body = 6 + 2 * asUsize (countAt body 4) := by
        rw [argCountOffset, count]
      rw [bind_ok (withCapacity_ok (by omega))]
      generalize asUsize (countAt body 4) = formats at count place ⊢
      have free : (body.drop 6).length = body.length - 6 := length_drop
      have start : (body.drop 4).drop 2 = body.drop 6 := drop_drop
      dsimp only
      rw [start]
      by_cases cut : (body.drop 6).length < 2 * formats
      · obtain ⟨after, failed, spent⟩ := @readMany_words_short Int
          ⟨body.drop 6, 0 + formats * 2⟩ 2 (BigEndian.signed 2) formats cut
        have uncounted : ¬argCountOffset body + 2 ≤ body.length := by omega
        rw [bind_error failed]
        refine ⟨fun stated => ?_, fun _ => .inr ⟨_, after, rfl, ?_⟩⟩
        · simp [negativeCount, full, negative, uncounted] at stated
        · dsimp only at spent
          omega
      · obtain ⟨values, -, read⟩ := @readMany_words Int ⟨body.drop 6, 0 + formats * 2⟩ 2
          (BigEndian.signed 2) formats (Nat.not_lt.mp cut)
        have next : (body.drop 6).drop (2 * formats) = body.drop (argCountOffset body) := by
          rw [drop_drop, place]
        have length : (body.drop (argCountOffset body)).length = body.length - argCountOffset body :=
          length_drop
        rw [bind_ok read]
        dsimp only
        rw [next]
        have stated : countAt (body.drop (argCountOffset body)) 0 =
            countAt body (argCountOffset body) := rfl
        constructor
        · intro counted
          simp only [negativeCount, full, negative, decide_true, decide_false, Bool.false_or,
            Bool.true_and, Bool.and_eq_true, decide_eq_true_eq] at counted
          exact readArgs_panics _ _ (by dsimp only; omega) counted.2
        · intro counted
          simp only [negativeCount, full, negative, decide_true, decide_false, Bool.false_or,
            Bool.true_and, Bool.and_eq_false_iff, decide_eq_false_iff_not] at counted
          have ends := @readArgs_ends (BigEndian.decode (body.take 4)) values
            ⟨body.drop (argCountOffset body), 0 + formats * 2⟩ fun enough => by
              dsimp only at enough ⊢
              rcases counted with short | nonneg
              · omega
              · exact Int.not_lt.mp nonneg
          rcases ends with ⟨call, after, done, spent⟩ | ⟨error, after, failed, spent⟩
          · exact .inl ⟨call, after, done, by dsimp only at spent; omega⟩
          · exact .inr ⟨error, after, failed, by dsimp only at spent; omega⟩

/-! ## Well-formed calls -/

def encodeArg : Option Bytes → Bytes
  | none => BigEndian.encode 4 (BigEndian.word 4 (-1))
  | some bytes => BigEndian.encode 4 bytes.length ++ bytes

def encodeI16 (n : Int) : Bytes := BigEndian.encode 2 (BigEndian.word 2 n)

def encodeBody (call : FunctionCall) : Bytes :=
  BigEndian.encode 4 call.functionId ++ (encodeI16 call.argFormatCodes.length ++
    (call.argFormatCodes.flatMap encodeI16 ++ (encodeI16 call.args.length ++
      (call.args.flatMap encodeArg ++ encodeI16 call.resultFormatCode))))

/-- A FunctionCall message, as the protocol has it. -/
def encode (call : FunctionCall) : Bytes :=
  messageType :: (BigEndian.encode 4 (4 + call.encodeBody.length) ++ call.encodeBody)

/-- Every number of the message fits its field. -/
structure WellFormed (call : FunctionCall) : Prop where
  functionId : call.functionId < 2 ^ 32
  formatCount : call.argFormatCodes.length < 2 ^ 15
  formats : ∀ format ∈ call.argFormatCodes, -2 ^ 15 ≤ format ∧ format < 2 ^ 15
  argCount : call.args.length < 2 ^ 15
  resultFormat : -2 ^ 15 ≤ call.resultFormatCode ∧ call.resultFormatCode < 2 ^ 15
  length : 4 + call.encodeBody.length < 2 ^ 31

variable {call : FunctionCall}

theorem readI16_encodeI16 {n : Int} (bounds : -2 ^ 15 ≤ n ∧ n < 2 ^ 15) (rest : Bytes)
    (allocated : Nat) : readI16 ⟨encodeI16 n ++ rest, allocated⟩ = .ok n ⟨rest, allocated⟩ := by
  have length : (encodeI16 n).length = 2 := BigEndian.length_encode ..
  rw [readI16, readWord_full _ (by simp [length])]
  dsimp only
  rw [take_left' length, drop_left' length, encodeI16,
    BigEndian.signed_decode_encode bounds.1 bounds.2 (by decide)]

theorem readU32_encode {n : Nat} (small : n < 2 ^ 32) (rest : Bytes) (allocated : Nat) :
    readU32 ⟨BigEndian.encode 4 n ++ rest, allocated⟩ = .ok n ⟨rest, allocated⟩ := by
  have length := BigEndian.length_encode 4 n
  rw [readU32, readWord_full _ (by simp)]
  dsimp only
  rw [take_left' length, drop_left' length, BigEndian.decode_encode,
    Nat.mod_eq_of_lt (by simpa using small)]
  rfl

theorem readI32_encode {n : Nat} (small : n < 2 ^ 31) (rest : Bytes) (allocated : Nat) :
    readI32 ⟨BigEndian.encode 4 n ++ rest, allocated⟩ = .ok (n : Int) ⟨rest, allocated⟩ := by
  have length := BigEndian.length_encode 4 n
  rw [readI32, readWord_full _ (by simp)]
  dsimp only
  rw [take_left' length, drop_left' length, BigEndian.decode_encode,
    Nat.mod_eq_of_lt (by omega), BigEndian.signed_of_lt (by omega)]

theorem readArg_encodeArg {arg : Option Bytes} (short : ∀ bytes, arg = some bytes → bytes.length < 2 ^ 31)
    (rest : Bytes) (allocated : Nat) :
    readArg ⟨encodeArg arg ++ rest, allocated⟩ =
      .ok arg ⟨rest, allocated + (arg.getD []).length⟩ := by
  cases arg with
  | none =>
    have read : readI32 ⟨encodeArg none ++ rest, allocated⟩ = .ok (-1) ⟨rest, allocated⟩ := rfl
    rw [readArg, bind_ok read]
    rfl
  | some bytes =>
    have read := readI32_encode (short bytes rfl) (bytes ++ rest) allocated
    rw [readArg, encodeArg, append_assoc, bind_ok read, if_neg (by omega), if_neg (by omega),
      bind_ok get_ok, Int.toNat_natCast, if_neg (by simp), drop_left, take_left]
    rfl

theorem readMany_encoded {α : Type} {read : Read α} {encode : α → Bytes} {cost : α → Nat}
    {items : List α} (each : ∀ item ∈ items, ∀ rest allocated,
      read ⟨encode item ++ rest, allocated⟩ = .ok item ⟨rest, allocated + cost item⟩)
    (rest : Bytes) (allocated : Nat) :
    readMany read items.length ⟨items.flatMap encode ++ rest, allocated⟩ =
      .ok items ⟨rest, allocated + (items.map cost).sum⟩ := by
  induction items generalizing allocated with
  | nil => rfl
  | cons item items ih =>
    have first := each item (mem_cons_self ..) (items.flatMap encode ++ rest) allocated
    have others := ih (fun other mem => each other (.tail _ mem))
      (allocated + cost item)
    rw [length_cons, readMany, flatMap_cons, append_assoc, bind_ok first,
      bind_ok others, map_cons, sum_cons, ← Nat.add_assoc]
    rfl

theorem length_le_flatMap {α : Type} {f : α → Bytes} {items : List α} {item : α}
    (mem : item ∈ items) : (f item).length ≤ (items.flatMap f).length :=
  (sublist_flatten_of_mem (mem_map_of_mem mem)).length_le

theorem WellFormed.readCall (formed : call.WellFormed) :
    ∃ allocated, FunctionCall.readCall ⟨call.encodeBody, 0⟩ = .ok call ⟨[], allocated⟩ := by
  have formatCount := formed.formatCount
  have argCount := formed.argCount
  have formats : asUsize call.argFormatCodes.length = call.argFormatCodes.length :=
    asUsize_of_nonneg (by omega) (by omega)
  have args : asUsize call.args.length = call.args.length :=
    asUsize_of_nonneg (by omega) (by omega)
  -- An argument is no longer than the message.
  have short : ∀ arg ∈ call.args, ∀ bytes, arg = some bytes → bytes.length < 2 ^ 31 := by
    rintro _ mem bytes rfl
    have inside := @length_le_flatMap _ encodeArg _ _ mem
    have total := formed.length
    simp only [encodeBody, encodeArg, length_append] at inside total
    omega
  have readFormats := @readMany_encoded _ readI16 encodeI16 (fun _ => 0) call.argFormatCodes
    fun format mem => readI16_encodeI16 (formed.formats format mem)
  have readArguments := @readMany_encoded _ readArg encodeArg (fun arg => (arg.getD []).length)
    call.args fun arg mem => readArg_encodeArg (short arg mem)
  rw [FunctionCall.readCall, encodeBody, bind_ok (readU32_encode formed.functionId _ _),
    bind_ok (readI16_encodeI16 ⟨by omega, by omega⟩ _ _), formats,
    bind_ok (withCapacity_ok (by omega)), bind_ok (readFormats _ _), readArgs,
    bind_ok (readI16_encodeI16 ⟨by omega, by omega⟩ _ _), args,
    bind_ok (withCapacity_ok (by omega)), bind_ok (readArguments _ _)]
  have last := readI16_encodeI16 formed.resultFormat []
  rw [append_nil] at last
  rw [bind_ok (last _), bind_ok get_ok]
  exact ⟨_, rfl⟩

/-! ## Packets -/

/-- A whole packet stands at the start of the buffer. -/
def Whole (src : Bytes) : Prop :=
  5 ≤ src.length ∧ 4 ≤ statedLength src ∧ packetLength src ≤ src.length

variable {src : Bytes}

theorem decode_whole (whole : Whole src) :
    decode src = match readCall ⟨body src, 0⟩ with
      | .ok call packet => ⟨.call call, src.drop (packetLength src), packet.allocated⟩
      | .error stop packet => ⟨.stopped stop, src.drop (packetLength src), packet.allocated⟩ := by
  obtain ⟨header, stated, present⟩ := whole
  rw [decode, if_neg (by omega), if_neg (by omega), if_neg (by omega)]

theorem decode_not_whole (partly : ¬Whole src) :
    decode src = ⟨.nothing, src, 0⟩ ∨ (5 ≤ src.length ∧ statedLength src < 4 ∧
      decode src = ⟨.stopped (.error (.invalidMessageType messageType)), src, 0⟩) := by
  unfold decode
  split
  · exact .inl rfl
  · split
    · rename_i header stated
      exact .inr ⟨Nat.not_lt.mp header, stated, rfl⟩
    · split
      · exact .inl rfl
      · exact absurd ⟨by omega, by omega, by omega⟩ partly

theorem statedLength_append (header : 5 ≤ src.length) (more : Bytes) :
    statedLength (src ++ more) = statedLength src := by
  rw [statedLength, statedLength, drop_append_of_le_length (by omega),
    take_append_of_le_length (by rw [length_drop]; omega)]

/-- Once the decoder has answered, later bytes stay where they are. -/
theorem decode_append (answered : (decode src).result ≠ .nothing) (more : Bytes) :
    decode (src ++ more) = { decode src with rest := (decode src).rest ++ more } := by
  by_cases whole : Whole src
  · obtain ⟨header, stated, present⟩ := id whole
    have sameLength := statedLength_append header more
    have samePacket : packetLength (src ++ more) = packetLength src := by
      rw [packetLength, sameLength, packetLength]
    have sameBody : body (src ++ more) = body src := by
      rw [body, samePacket, take_append_of_le_length present, body]
    have longer : Whole (src ++ more) := by
      rw [Whole, length_append, sameLength, samePacket]
      exact ⟨by omega, stated, by omega⟩
    rw [decode_whole whole, decode_whole longer, sameBody, samePacket,
      drop_append_of_le_length present]
    cases readCall ⟨body src, 0⟩ <;> rfl
  · rcases decode_not_whole whole with waiting | ⟨header, stated, refused⟩
    · rw [waiting] at answered
      exact absurd rfl answered
    · have longer : decode (src ++ more) =
          ⟨.stopped (.error (.invalidMessageType messageType)), src ++ more, 0⟩ := by
        rw [decode, if_neg (by rw [length_append]; omega),
          if_pos (by rw [statedLength_append header]; exact stated)]
      rw [longer, refused]

/-- The answer does not depend on how the bytes arrive. -/
theorem decodeArriving_eq (buffer : Bytes) (pieces : List Bytes) :
    decodeArriving buffer pieces = decode (buffer ++ pieces.flatten) := by
  induction pieces generalizing buffer with
  | nil => simp [decodeArriving]
  | cons piece later ih =>
    rw [decodeArriving, flatten_cons, ← append_assoc]
    cases outcome : decode (buffer ++ piece) with
    | mk result rest allocated =>
      cases result with
      | nothing => exact ih _
      | call | stopped =>
        have later := @decode_append (buffer ++ piece) (by simp [outcome]) later.flatten
        rw [outcome] at later
        exact later.symm

/-- The decoder does not panic, allocates little against the packet, waits for
    a whole packet without touching the buffer, and then takes just that packet.
    A length that no packet can have is refused as soon as it is there. -/
structure Exact (src : Bytes) : Prop where
  calm : (decode src).result ≠ .stopped .panic
  frugal : (decode src).allocated ≤ 2 ^ 18 * packetLength src
  waits : ¬Whole src → (decode src).rest = src ∧ ((decode src).result = .nothing ∨
    (5 ≤ src.length ∧ statedLength src < 4 ∧
      (decode src).result = .stopped (.error (.invalidMessageType messageType))))
  takes : Whole src → (decode src).rest = src.drop (packetLength src) ∧ (decode src).result ≠ .nothing

theorem exact_of_partly (partly : ¬Whole src) : Exact src := by
  rcases decode_not_whole partly with waiting | ⟨header, stated, refused⟩
  · exact ⟨by simp [waiting], by simp [waiting], fun _ => by simp [waiting],
      fun whole => absurd whole partly⟩
  · exact ⟨by simp [refused], by simp [refused], fun _ => by simp [refused, header, stated],
      fun whole => absurd whole partly⟩

theorem exact_of_counted (whole : Whole src) (counted : negativeCount (body src) = false) :
    Exact src := by
  have decoded := decode_whole whole
  have length : (body src).length = packetLength src - 5 := by
    rw [body, length_drop, length_take, Nat.min_eq_left whole.2.2]
  have header : 5 ≤ packetLength src := by
    have := whole.2.1
    rw [packetLength]
    omega
  rcases (readCall_ends (body src)).2 counted with
    ⟨call, after, read, spent⟩ | ⟨error, after, failed, spent⟩
  · rw [read] at decoded
    exact ⟨by simp [decoded], by rw [decoded]; dsimp only; omega, fun partly => absurd whole partly,
      fun _ => by simp [decoded]⟩
  · rw [failed] at decoded
    exact ⟨by simp [decoded], by rw [decoded]; dsimp only; omega, fun partly => absurd whole partly,
      fun _ => by simp [decoded]⟩

theorem WellFormed.decode (formed : call.WellFormed) (more : Bytes) :
    (FunctionCall.decode (call.encode ++ more)).result = .call call ∧
      (FunctionCall.decode (call.encode ++ more)).rest = more := by
  have total := formed.length
  have stated : statedLength call.encode = 4 + call.encodeBody.length := by
    have header := BigEndian.length_encode 4 (4 + call.encodeBody.length)
    rw [statedLength, encode, drop_succ_cons, drop_zero, take_left' header,
      BigEndian.decode_encode, Nat.mod_eq_of_lt (by omega), BigEndian.signed_of_lt (by omega)]
    push_cast
    rfl
  have length : call.encode.length = 5 + call.encodeBody.length := by
    rw [encode, length_cons, length_append, BigEndian.length_encode]
    omega
  have packet : packetLength call.encode = call.encode.length := by
    rw [packetLength, stated]
    omega
  have whole : Whole call.encode := ⟨by omega, by omega, by omega⟩
  have content : body call.encode = call.encodeBody := by
    rw [body, packet, take_length, encode]
    exact @List.drop_left' _ (messageType :: BigEndian.encode 4 (4 + call.encodeBody.length))
      call.encodeBody 5 rfl
  obtain ⟨allocated, read⟩ := formed.readCall
  have decoded := decode_whole whole
  rw [content, read, packet, drop_length] at decoded
  have arrived := @decode_append call.encode (by simp [decoded]) more
  rw [arrived, decoded]
  exact ⟨rfl, rfl⟩

/-- A buffer is decoded exactly and without panic unless a whole packet in it states
    a negative count. However its bytes arrive, it is decoded in the same way, and a
    well-formed call at its start is decoded as it was encoded. -/
theorem decode_exact_iff (src : Bytes) :
    (Exact src ↔ ¬(Whole src ∧ negativeCount (body src) = true)) ∧
      (∀ pieces : List Bytes, pieces.flatten = src → decodeArriving [] pieces = decode src) ∧
      ∀ (call : FunctionCall) (more : Bytes), call.WellFormed → src = call.encode ++ more →
        (decode src).result = .call call ∧ (decode src).rest = more := by
  refine ⟨⟨?_, fun stated => ?_⟩, ?_, ?_⟩
  · rintro exact ⟨whole, negative⟩
    obtain ⟨after, panics⟩ := (readCall_ends (body src)).1 negative
    have decoded := decode_whole whole
    rw [panics] at decoded
    exact exact.calm (by rw [decoded])
  · by_cases whole : Whole src
    · exact exact_of_counted whole (Bool.eq_false_iff.mpr fun negative => stated ⟨whole, negative⟩)
    · exact exact_of_partly whole
  · rintro pieces rfl
    exact decodeArriving_eq [] pieces
  · rintro call more formed rfl
    exact formed.decode more

/-- A call of function 952 with a count of -1 formats. -/
def negativeFormats : Bytes := [70, 0, 0, 0, 10, 0, 0, 3, 184, 255, 255]

theorem decode_panics : (decode negativeFormats).result = .stopped .panic := rfl

end FunctionCall

end FastPg.Wire
