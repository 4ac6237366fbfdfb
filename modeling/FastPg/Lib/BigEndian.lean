import Mathlib

/-! # Numbers in network byte order

Numbers of a fixed width as bytes, most significant first, and signed numbers as
the words that stand for them.
-/

namespace FastPg.BigEndian

def encode : Nat → Nat → List UInt8
  | 0, _ => []
  | width + 1, n => UInt8.ofNat (n / 256 ^ width) :: encode width n

def decode (bytes : List UInt8) : Nat := bytes.foldl (fun n byte => 256 * n + byte.toNat) 0

@[simp] theorem length_encode (width n : Nat) : (encode width n).length = width := by
  induction width with
  | zero => rfl
  | succ width ih => simp [encode, ih]

variable (bytes : List UInt8)

theorem foldl_decode (start : Nat) :
    bytes.foldl (fun n byte => 256 * n + byte.toNat) start =
      256 ^ bytes.length * start + decode bytes := by
  induction bytes generalizing start with
  | nil => simp [decode]
  | cons byte rest ih =>
    rw [decode, List.foldl_cons, List.foldl_cons, ih, ih, List.length_cons]
    ring

theorem decode_cons (byte : UInt8) (rest : List UInt8) :
    decode (byte :: rest) = 256 ^ rest.length * byte.toNat + decode rest := by
  rw [decode, List.foldl_cons, foldl_decode]
  ring

theorem decode_encode (width n : Nat) : decode (encode width n) = n % 256 ^ width := by
  induction width with
  | zero => simp [encode, decode, Nat.mod_one]
  | succ width ih =>
    have byte : (UInt8.ofNat (n / 256 ^ width)).toNat = n / 256 ^ width % 256 := UInt8.toNat_ofNat'
    have split : n % 256 ^ (width + 1) = n % 256 ^ width + 256 ^ width * (n / 256 ^ width % 256) :=
      Nat.mod_mul
    rw [encode, decode_cons, length_encode, ih, byte, split, Nat.add_comm]

theorem decode_lt : decode bytes < 256 ^ bytes.length := by
  induction bytes with
  | nil => simp [decode]
  | cons byte rest ih =>
    have digit : byte.toNat + 1 ≤ 256 := byte.toNat_lt
    have most := Nat.mul_le_mul_left (256 ^ rest.length) digit
    rw [decode_cons, List.length_cons, pow_succ]
    rw [Nat.mul_add, Nat.mul_one] at most
    omega

/-- A word of so many bytes, read as a signed number. -/
def signed (width n : Nat) : Int := (BitVec.ofNat (8 * width) n).toInt

/-- The word that stands for a signed number. -/
def word (width : Nat) (i : Int) : Nat := (BitVec.ofInt (8 * width) i).toNat

variable {width : Nat}

theorem signed_word {i : Int} (low : -2 ^ (8 * width - 1) ≤ i) (high : i < 2 ^ (8 * width - 1))
    (wide : 0 < width) : signed width (word width i) = i := by
  rw [signed, word, BitVec.ofNat_toNat, BitVec.setWidth_eq]
  exact BitVec.toInt_ofInt_eq_self (by omega) low high

theorem signed_of_lt {n : Nat} (small : 2 * n < 2 ^ (8 * width)) : signed width n = n := by
  have toNat : (BitVec.ofNat (8 * width) n).toNat = n := by
    rw [BitVec.toNat_ofNat, Nat.mod_eq_of_lt (by omega)]
  rw [signed, BitVec.toInt_eq_toNat_of_lt (by rw [toNat]; exact small), toNat]

theorem word_lt (width : Nat) (i : Int) : word width i < 256 ^ width := by
  have small := (BitVec.ofInt (8 * width) i).isLt
  rwa [pow_mul] at small

/-- A number that was written is read back. -/
theorem signed_decode_encode {i : Int} (low : -2 ^ (8 * width - 1) ≤ i)
    (high : i < 2 ^ (8 * width - 1)) (wide : 0 < width) :
    signed width (decode (encode width (word width i))) = i := by
  rw [decode_encode, Nat.mod_eq_of_lt (word_lt width i), signed_word low high wide]

end FastPg.BigEndian
