import Qubitcoin.Machine
import Qubitcoin.Lib.LittleEndian

/-! `qubitcoin-primitives`: 256-bit values, amounts and compact targets. -/

namespace qubitcoin.primitives

/-- A 32-byte value, identified with the number its bytes spell in
    little-endian order. -/
abbrev Uint256 := BitVec 256

abbrev BlockHash := Uint256
abbrev Txid := Uint256
abbrev Wtxid := Uint256

def Uint256.is_null (self : Uint256) : Bool := self == 0

def Uint256.data (self : Uint256) : List UInt8 := littleEndian.toBytes 32 self.toNat

def Uint256.from_bytes (bytes : List UInt8) : Uint256 := BitVec.ofNat 256 (littleEndian.ofBytes bytes)

theorem Uint256.from_bytes_data (self : Uint256) : Uint256.from_bytes self.data = self := by
  have hfit : self.toNat < 256 ^ 32 := self.isLt
  unfold Uint256.from_bytes Uint256.data
  rw [littleEndian.ofBytes_toBytes hfit, BitVec.ofNat_toNat, BitVec.setWidth_eq]

/-- Satoshis, a wrapper of `i64`; every sum is checked. -/
abbrev Amount := Int

def COIN : Int := 100000000
def MAX_MONEY : Int := 21000000 * COIN

def money_range (value : Int) : Bool := decide (0 ≤ value ∧ value ≤ MAX_MONEY)

theorem money_range_iff {value : Int} :
    money_range value = true ↔ 0 ≤ value ∧ value ≤ 2100000000000000 := by
  rw [money_range, decide_eq_true_iff]
  norm_num [MAX_MONEY, COIN]

/-- Unsigned 256-bit arithmetic: sums and products are taken modulo `2 ^ 256`. -/
abbrev ArithUint256 := BitVec 256

/-- `uint256_to_arith`: both sides are the number spelled by the bytes. -/
def uint256_to_arith (x : Uint256) : ArithUint256 := x

def arith_to_uint256 (x : ArithUint256) : Uint256 := x

def ArithUint256.bits (self : ArithUint256) : Nat :=
  if self.toNat = 0 then 0 else Nat.log2 self.toNat + 1

/-- Decode a compact target: the value, the sign flag and the overflow flag. -/
def ArithUint256.set_compact (compact : UInt32) : ArithUint256 × Bool × Bool :=
  let n_size := (compact >>> 24).toNat
  let mantissa := (compact &&& 0x007fffff).toNat
  let n_word := if n_size ≤ 3 then mantissa >>> (8 * (3 - n_size)) else mantissa
  let value := if n_size ≤ 3 then BitVec.ofNat 256 n_word
    else BitVec.ofNat 256 n_word <<< (8 * (n_size - 3))
  let negative := n_word != 0 && (compact &&& 0x00800000) != 0
  let overflow := n_word != 0 && (decide (34 < n_size) || (decide (0xff < n_word) && decide (33 < n_size)) ||
    (decide (0xffff < n_word) && decide (32 < n_size)))
  (value, negative, overflow)

def ArithUint256.get_compact (self : ArithUint256) (negative : Bool) : UInt32 :=
  let size := (self.bits + 7) / 8
  let word := if size ≤ 3 then (self.toNat % 2 ^ 64) <<< (8 * (3 - size))
    else (self.toNat >>> (8 * (size - 3))) % 2 ^ 64
  let word := word % 2 ^ 32
  -- A set sign bit moves into a longer exponent instead.
  let (word, size) := if word &&& 0x00800000 != 0 then (word >>> 8, size + 1) else (word, size)
  let compact := UInt32.ofNat word ||| (UInt32.ofNat size <<< 24)
  if negative && (compact &&& 0x007fffff) != 0 then compact ||| 0x00800000 else compact

end qubitcoin.primitives
