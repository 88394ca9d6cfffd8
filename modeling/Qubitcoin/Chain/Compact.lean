import Mathlib.Data.Nat.Bitwise
import Qubitcoin.Primitives

/-! The compact form of a target is a rounding: decoding what `get_compact` encodes keeps
    the leading bytes of the value and drops the others. -/

open truncate

namespace qubitcoin.primitives

namespace ArithUint256

theorem bits_le_iff (self : ArithUint256) (k : Nat) : self.bits ≤ k ↔ self.toNat < 2 ^ k := by
  unfold bits
  split
  · next h => simp [h]
  · next h => rw [Nat.add_one_le_iff, Nat.log2_lt h]

theorem lt_bits_iff (self : ArithUint256) (k : Nat) : k < self.bits ↔ 2 ^ k ≤ self.toNat := by
  rw [← not_le, bits_le_iff, not_lt]

theorem bits_mono {x y : ArithUint256} (h : x.toNat ≤ y.toNat) : x.bits ≤ y.bits := by
  rw [bits_le_iff]
  exact h.trans_lt ((bits_le_iff y y.bits).mp le_rfl)

theorem bits_le_width (self : ArithUint256) : self.bits ≤ 256 :=
  (bits_le_iff self 256).mpr self.isLt

/-- The exponent byte that `get_compact` writes. The byte is one more when the leading bit
    of the mantissa would be taken for the sign. -/
def compact_size (self : ArithUint256) : Nat := if self.toNat = 0 then 0 else self.bits / 8 + 1

/-- The number of low bits that the compact form drops. -/
def dropped (self : ArithUint256) : Nat := 8 * (self.bits / 8 - 2)

/-- The value that is left of a target in compact form. -/
def rounded (self : ArithUint256) : Nat := down self.dropped self.toNat

theorem rounded_le (self : ArithUint256) : self.rounded ≤ self.toNat := down_le _ _

theorem rounded_mono {x y : ArithUint256} (h : x.toNat ≤ y.toNat) : x.rounded ≤ y.rounded := by
  have hbits := bits_mono h
  by_cases heq : x.bits / 8 = y.bits / 8
  · unfold rounded dropped
    rw [heq]
    exact down_mono _ h
  · -- The sizes differ, so the leading byte of `y` lies above all of `x`.
    have hlow : x.toNat < 2 ^ (8 * (y.bits / 8) - 1) := (bits_le_iff _ _).mp (by omega)
    have hhigh : 2 ^ (8 * (y.bits / 8) - 1) ≤ y.toNat := (lt_bits_iff _ _).mp (by omega)
    calc x.rounded ≤ x.toNat := rounded_le x
      _ ≤ 2 ^ (8 * (y.bits / 8) - 1) := hlow.le
      _ ≤ y.rounded := pow_le_down (by unfold dropped; omega) hhigh

/-- A mantissa and an exponent byte in one word. -/
def packed (word size : Nat) : UInt32 := UInt32.ofNat word ||| (UInt32.ofNat size <<< 24)

theorem toNat_packed {word size : Nat} (hword : word < 2 ^ 23) (hsize : size < 2 ^ 8) :
    (packed word size).toNat = 2 ^ 24 * size + word := by
  unfold packed
  rw [UInt32.toNat_or, UInt32.toNat_shiftLeft, UInt32.toNat_ofNat_of_lt' (hword.trans (by decide)),
    UInt32.toNat_ofNat_of_lt' (hsize.trans (by decide)), Nat.or_comm]
  have hshift : size <<< ((24 : UInt32).toNat % 32) % 2 ^ 32 = 2 ^ 24 * size := by
    change size <<< 24 % 2 ^ 32 = 2 ^ 24 * size
    rw [Nat.shiftLeft_eq]
    omega
  rw [hshift, Nat.two_pow_add_eq_or_of_lt (by omega)]

theorem packed_fields {word size : Nat} (hword : word < 2 ^ 23) (hsize : size < 2 ^ 8) :
    (packed word size >>> 24).toNat = size ∧ (packed word size &&& 0x007fffff).toNat = word ∧
      packed word size &&& 0x00800000 = 0 := by
  have htoNat := toNat_packed hword hsize
  refine ⟨?_, ?_, ?_⟩
  · rw [UInt32.toNat_shiftRight, htoNat]
    change (2 ^ 24 * size + word) >>> 24 = size
    rw [Nat.shiftRight_eq_div_pow]
    omega
  · rw [UInt32.toNat_and, htoNat]
    change (2 ^ 24 * size + word) &&& (2 ^ 23 - 1) = word
    rw [Nat.and_two_pow_sub_one_eq_mod]
    omega
  · apply UInt32.toNat.inj
    rw [UInt32.toNat_and, htoNat]
    change (2 ^ 24 * size + word) &&& 2 ^ 23 = 0
    rw [Nat.and_two_pow, Nat.testBit_eq_decide_div_mod_eq, decide_eq_false (by omega)]
    rfl

/-- The three leading bytes of a value of `size` bytes. -/
def leading (n size : Nat) : Nat := n * 2 ^ 24 / 2 ^ (8 * size)

theorem leading_of_le {size : Nat} (n : Nat) (h : size ≤ 3) : leading n size = n <<< (8 * (3 - size)) := by
  have hsplit : 2 ^ 24 = 2 ^ (8 * (3 - size)) * 2 ^ (8 * size) := by
    rw [← Nat.pow_add]
    congr 1
    omega
  rw [leading, hsplit, ← mul_assoc, Nat.mul_div_cancel _ (Nat.two_pow_pos _), Nat.shiftLeft_eq]

theorem leading_of_lt {size : Nat} (n : Nat) (h : 3 < size) : leading n size = n >>> (8 * (size - 3)) := by
  have hsplit : 2 ^ (8 * size) = 2 ^ (8 * (size - 3)) * 2 ^ 24 := by
    rw [← Nat.pow_add]
    congr 1
    omega
  rw [leading, hsplit, Nat.mul_div_mul_right _ _ (Nat.two_pow_pos _), Nat.shiftRight_eq_div_pow]

theorem leading_succ (n size : Nat) : leading n (size + 1) = leading n size >>> 8 := by
  rw [leading, leading, Nat.shiftRight_eq_div_pow, Nat.div_div_eq_div_mul, ← Nat.pow_add, Nat.mul_add_one]

theorem leading_lt {n size k : Nat} (hk : k ≤ 24) (hsize : k ≤ 8 * size) (h : n < 2 ^ (8 * size - k)) :
    leading n size < 2 ^ (24 - k) := by
  rw [leading, Nat.div_lt_iff_lt_mul (Nat.two_pow_pos _)]
  calc n * 2 ^ 24 < 2 ^ (8 * size - k) * 2 ^ 24 := Nat.mul_lt_mul_of_pos_right h (Nat.two_pow_pos _)
    _ = 2 ^ (24 - k) * 2 ^ (8 * size) := by rw [← Nat.pow_add, ← Nat.pow_add]; congr 1; omega

theorem le_leading {n size : Nat} (hsize : 0 < size) (h : 2 ^ (8 * size - 1) ≤ n) : 2 ^ 23 ≤ leading n size := by
  rw [leading, Nat.le_div_iff_mul_le (Nat.two_pow_pos _)]
  calc 2 ^ 23 * 2 ^ (8 * size) = 2 ^ (8 * size - 1) * 2 ^ 24 := by
        rw [← Nat.pow_add, ← Nat.pow_add]; congr 1; omega
    _ ≤ n * 2 ^ 24 := Nat.mul_le_mul_right _ h

theorem leading_word {n size : Nat} (h : n < 2 ^ (8 * size)) :
    (if size ≤ 3 then (n % 2 ^ 64) <<< (8 * (3 - size)) else (n >>> (8 * (size - 3))) % 2 ^ 64) % 2 ^ 32 =
      leading n size := by
  have hlt : leading n size < 2 ^ 24 := leading_lt (Nat.zero_le _) (Nat.zero_le _) h
  split
  · next hsize =>
    have hn : n < 2 ^ 24 := h.trans_le (Nat.pow_le_pow_right (by decide) (by omega))
    rw [Nat.mod_eq_of_lt (hn.trans (by decide)), ← leading_of_le n hsize]
    exact Nat.mod_eq_of_lt (hlt.trans (by decide))
  · next hsize =>
    rw [← leading_of_lt n (by omega), Nat.mod_eq_of_lt (hlt.trans (by decide))]
    exact Nat.mod_eq_of_lt (hlt.trans (by decide))

theorem leading_sign {word : Nat} (h : word < 2 ^ 24) : (word &&& 0x00800000 != 0) = decide (2 ^ 23 ≤ word) := by
  change (word &&& 2 ^ 23 != 0) = _
  rw [Nat.and_two_pow, Nat.testBit_eq_decide_div_mod_eq]
  by_cases hword : 2 ^ 23 ≤ word
  · have hbit : word / 2 ^ 23 % 2 = 1 := by omega
    rw [decide_eq_true hbit, decide_eq_true hword]
    rfl
  · have hbit : ¬ word / 2 ^ 23 % 2 = 1 := by omega
    rw [decide_eq_false hbit, decide_eq_false hword]
    rfl

theorem get_compact_eq (self : ArithUint256) :
    self.get_compact false = packed (leading self.toNat self.compact_size) self.compact_size ∧
      leading self.toNat self.compact_size < 2 ^ 23 := by
  have hwidth := (bits_le_iff self self.bits).mp le_rfl
  have hsize : self.toNat < 2 ^ (8 * ((self.bits + 7) / 8)) :=
    hwidth.trans_le (Nat.pow_le_pow_right (by decide) (by omega))
  have hlt : leading self.toNat ((self.bits + 7) / 8) < 2 ^ 24 :=
    leading_lt (Nat.zero_le _) (Nat.zero_le _) hsize
  unfold get_compact
  simp only [leading_word hsize, leading_sign hlt, Bool.false_and, Bool.false_eq_true, if_false]
  by_cases hzero : self.toNat = 0
  · have hbits : self.bits = 0 := Nat.le_zero.mp ((bits_le_iff self 0).mpr (by omega))
    simp [compact_size, hzero, hbits, leading, packed]
  · have hpos : 0 < self.bits := (lt_bits_iff self 0).mpr (by omega)
    rw [compact_size, if_neg hzero]
    by_cases hfull : self.bits % 8 = 0
    · -- The mantissa fills its three bytes: the exponent takes the sign bit's place.
      have hsign : 2 ^ 23 ≤ leading self.toNat ((self.bits + 7) / 8) :=
        le_leading (by omega) ((lt_bits_iff self _).mp (by omega))
      have hnext : self.bits / 8 + 1 = (self.bits + 7) / 8 + 1 := by omega
      rw [hnext, leading_succ, decide_eq_true hsign, Nat.shiftRight_eq_div_pow]
      exact ⟨rfl, by omega⟩
    · have hnext : self.bits / 8 + 1 = (self.bits + 7) / 8 := by omega
      have hsign : leading self.toNat ((self.bits + 7) / 8) < 2 ^ 23 := by
        have hshort : self.toNat < 2 ^ (8 * ((self.bits + 7) / 8) - 1) :=
          hwidth.trans_le (Nat.pow_le_pow_right (by decide) (by omega))
        exact leading_lt (by decide) (by omega) hshort
      rw [hnext, decide_eq_false (by omega)]
      exact ⟨rfl, hsign⟩

theorem value_packed {word size : Nat} (hword : word < 2 ^ 23) (hsize : size < 2 ^ 8) :
    (set_compact (packed word size)).1 = BitVec.ofNat 256 (word * 2 ^ (8 * size) / 2 ^ 24) := by
  obtain ⟨hexponent, hmantissa, -⟩ := packed_fields hword hsize
  simp only [set_compact, hexponent, hmantissa]
  split
  · next hle =>
    have hsplit : 2 ^ 24 = 2 ^ (8 * (3 - size)) * 2 ^ (8 * size) := by
      rw [← Nat.pow_add]
      congr 1
      omega
    rw [hsplit, Nat.mul_div_mul_right _ _ (Nat.two_pow_pos _), Nat.shiftRight_eq_div_pow]
  · next hlt =>
    have hsplit : 2 ^ (8 * size) = 2 ^ (8 * (size - 3)) * 2 ^ 24 := by
      rw [← Nat.pow_add]
      congr 1
      omega
    rw [hsplit, ← mul_assoc, Nat.mul_div_cancel _ (Nat.two_pow_pos _)]
    apply BitVec.eq_of_toNat_eq
    rw [BitVec.toNat_shiftLeft, BitVec.toNat_ofNat, BitVec.toNat_ofNat, Nat.shiftLeft_eq, Nat.mod_mul_mod]

theorem compact_size_le (self : ArithUint256) : self.compact_size ≤ 33 := by
  have := bits_le_width self
  unfold compact_size
  split <;> omega

theorem leading_eq_rounded (self : ArithUint256) :
    leading self.toNat self.compact_size * 2 ^ (8 * self.compact_size) / 2 ^ 24 = self.rounded := by
  by_cases hzero : self.toNat = 0
  · simp [hzero, leading, rounded, down]
  · have hsize : self.compact_size = self.bits / 8 + 1 := if_neg hzero
    by_cases hle : self.compact_size ≤ 3
    · have hdropped : self.dropped = 0 := by
        unfold dropped
        omega
      have hsplit : 2 ^ 24 = 2 ^ (8 * (3 - self.compact_size)) * 2 ^ (8 * self.compact_size) := by
        rw [← Nat.pow_add]
        congr 1
        omega
      rw [leading_of_le _ hle, Nat.shiftLeft_eq, mul_assoc, ← hsplit, Nat.mul_div_cancel _ (Nat.two_pow_pos _),
        rounded, hdropped, down_zero]
    · have hdropped : self.dropped = 8 * (self.compact_size - 3) := by
        unfold dropped
        omega
      have hsplit : 2 ^ (8 * self.compact_size) = 2 ^ (8 * (self.compact_size - 3)) * 2 ^ 24 := by
        rw [← Nat.pow_add]
        congr 1
        omega
      rw [leading_of_lt _ (by omega), Nat.shiftRight_eq_div_pow, hsplit, ← mul_assoc,
        Nat.mul_div_cancel _ (Nat.two_pow_pos _), rounded, hdropped, down]

theorem set_compact_get_compact (self : ArithUint256) :
    set_compact (self.get_compact false) = (BitVec.ofNat 256 self.rounded, false, false) := by
  obtain ⟨hcompact, hword⟩ := get_compact_eq self
  have hsize := compact_size_le self
  have hbyte : self.compact_size < 2 ^ 8 := by omega
  obtain ⟨hexponent, hmantissa, hsign⟩ := packed_fields hword hbyte
  rw [hcompact]
  refine Prod.ext ?_ (Prod.ext ?_ ?_)
  · rw [value_packed hword hbyte, leading_eq_rounded]
  · simp [set_compact, hsign]
  · -- Only a full width reaches the exponent 33, and its mantissa has two bytes.
    have htop : self.compact_size = 33 → leading self.toNat self.compact_size < 2 ^ 16 := by
      intro h
      rw [h]
      exact leading_lt (k := 8) (by decide) (by decide) self.isLt
    simp only [set_compact, hexponent, hmantissa, Bool.and_eq_false_iff, Bool.or_eq_false_iff, decide_eq_false_iff_not]
    right
    refine ⟨⟨by omega, .inr (by omega)⟩, ?_⟩
    by_cases h : self.compact_size = 33
    · have := htop h
      rw [if_neg (by omega)]
      exact .inl (by omega)
    · exact .inr (by omega)

theorem toNat_decoded (self : ArithUint256) : (set_compact (self.get_compact false)).1.toNat = self.rounded := by
  rw [set_compact_get_compact, BitVec.toNat_ofNat]
  exact Nat.mod_eq_of_lt ((rounded_le self).trans_lt self.isLt)

theorem toNat_rounded (self : ArithUint256) : (BitVec.ofNat 256 self.rounded).toNat = self.rounded := by
  rw [BitVec.toNat_ofNat]
  exact Nat.mod_eq_of_lt ((rounded_le self).trans_lt self.isLt)

theorem bits_rounded (self : ArithUint256) : ArithUint256.bits (BitVec.ofNat 256 self.rounded) = self.bits := by
  have hvalue := toNat_rounded self
  apply le_antisymm
  · exact bits_mono (by rw [hvalue]; exact rounded_le self)
  · by_cases hzero : self.bits = 0
    · omega
    · have hlead : 2 ^ (self.bits - 1) ≤ self.rounded :=
        pow_le_down (by unfold dropped; omega) ((lt_bits_iff self _).mp (by omega))
      have hlt := (lt_bits_iff (BitVec.ofNat 256 self.rounded) (self.bits - 1)).mpr (by rw [hvalue]; exact hlead)
      omega

theorem rounded_rounded (self : ArithUint256) : ArithUint256.rounded (BitVec.ofNat 256 self.rounded) = self.rounded := by
  have hdropped : ArithUint256.dropped (BitVec.ofNat 256 self.rounded) = self.dropped := by
    unfold dropped
    rw [bits_rounded]
  rw [rounded, toNat_rounded, hdropped]
  exact down_down _ _

/-- A compact target in the one form that `get_compact` gives its value: the mantissa needs its
    three bytes or its sign bit would be set without the leading one, and nothing of it is below
    the value. -/
def Normalized (compact : UInt32) : Prop :=
  compact = 0 ∨ 0x8000 ≤ (compact &&& 0x007fffff).toNat ∧
    2 ^ (8 * (3 - (compact >>> 24).toNat)) ∣ (compact &&& 0x007fffff).toNat

theorem packed_mantissa {compact : UInt32} (hsign : compact &&& 0x00800000 = 0) :
    packed (compact &&& 0x007fffff).toNat (compact >>> 24).toNat = compact ∧
      (compact &&& 0x007fffff).toNat < 2 ^ 23 ∧ (compact >>> 24).toNat < 2 ^ 8 := by
  have hword : (compact &&& 0x007fffff).toNat = compact.toNat % 2 ^ 23 := by
    rw [UInt32.toNat_and]
    exact Nat.and_two_pow_sub_one_eq_mod compact.toNat 23
  have hsize : (compact >>> 24).toNat = compact.toNat / 2 ^ 24 := by
    rw [UInt32.toNat_shiftRight]
    exact Nat.shiftRight_eq_div_pow compact.toNat 24
  have hbit : compact.toNat / 2 ^ 23 % 2 = 0 := by
    have hand := congrArg UInt32.toNat hsign
    rw [UInt32.toNat_and] at hand
    change compact.toNat &&& 2 ^ 23 = 0 at hand
    rw [Nat.and_two_pow, Nat.testBit_eq_decide_div_mod_eq] at hand
    by_contra hne
    rw [decide_eq_true (by omega)] at hand
    cases hand
  have hlt := compact.toNat_lt
  have hmantissa : (compact &&& 0x007fffff).toNat < 2 ^ 23 := by omega
  have hexponent : (compact >>> 24).toNat < 2 ^ 8 := by omega
  refine ⟨UInt32.toNat_inj.mp ?_, hmantissa, hexponent⟩
  rw [toNat_packed hmantissa hexponent, hword, hsize]
  omega

theorem normalized_get_compact (self : ArithUint256) : Normalized (self.get_compact false) := by
  obtain ⟨hcompact, hword⟩ := get_compact_eq self
  have hsize := compact_size_le self
  obtain ⟨hexponent, hmantissa, -⟩ := packed_fields hword (show self.compact_size < 2 ^ 8 by omega)
  rw [hcompact, Normalized, hexponent, hmantissa]
  by_cases hzero : self.toNat = 0
  · left
    simp [compact_size, hzero, leading, packed]
  · have hpos : 0 < self.bits := (lt_bits_iff self 0).mpr (by omega)
    have hlead := (lt_bits_iff self (self.bits - 1)).mp (by omega)
    have hlength : self.compact_size = self.bits / 8 + 1 := if_neg hzero
    right
    constructor
    · rw [leading, Nat.le_div_iff_mul_le (Nat.two_pow_pos _)]
      calc 2 ^ 15 * 2 ^ (8 * self.compact_size) = 2 ^ (15 + 8 * self.compact_size) := by rw [pow_add]
        _ ≤ 2 ^ (self.bits - 1 + 24) := Nat.pow_le_pow_right (by decide) (by omega)
        _ ≤ self.toNat * 2 ^ 24 := by rw [pow_add]; exact Nat.mul_le_mul_right _ hlead
    · by_cases hle : self.compact_size ≤ 3
      · rw [leading_of_le _ hle, Nat.shiftLeft_eq]
        exact Nat.dvd_mul_left _ _
      · rw [Nat.sub_eq_zero_of_le (by omega)]
        exact Nat.one_dvd _

theorem get_compact_value {word size : Nat} (hlow : 2 ^ 15 ≤ word) (hword : word < 2 ^ 23) (hsize : size < 2 ^ 8)
    (hdvd : 2 ^ (8 * (3 - size)) ∣ word) {self : ArithUint256} (hvalue : self.toNat * 2 ^ 24 = word * 2 ^ (8 * size)) :
    self.get_compact false = packed word size := by
  have hpos : 0 < size := by
    by_contra hzero
    obtain rfl : size = 0 := by omega
    have hle := Nat.le_of_dvd (by omega) hdvd
    omega
  have hne : self.toNat ≠ 0 := by
    intro hzero
    rw [hzero, Nat.zero_mul] at hvalue
    have hprod : 0 < word * 2 ^ (8 * size) := Nat.mul_pos (by omega) (Nat.two_pow_pos _)
    omega
  have hupper : self.bits ≤ 8 * size - 1 := by
    refine (bits_le_iff self _).mpr (lt_of_mul_lt_mul_right ?_ (Nat.zero_le (2 ^ 24)))
    calc self.toNat * 2 ^ 24 = word * 2 ^ (8 * size) := hvalue
      _ < 2 ^ 23 * 2 ^ (8 * size) := Nat.mul_lt_mul_of_pos_right hword (Nat.two_pow_pos _)
      _ = 2 ^ (8 * size - 1) * 2 ^ 24 := by rw [← pow_add, ← pow_add]; congr 1; omega
  have hlower : 8 * size - 9 < self.bits := by
    by_cases hone : size = 1
    · subst hone
      exact (lt_bits_iff self 0).mpr (by omega)
    refine (lt_bits_iff self _).mpr (le_of_mul_le_mul_right ?_ (Nat.two_pow_pos 24))
    calc 2 ^ (8 * size - 9) * 2 ^ 24 = 2 ^ 15 * 2 ^ (8 * size) := by rw [← pow_add, ← pow_add]; congr 1; omega
      _ ≤ word * 2 ^ (8 * size) := Nat.mul_le_mul_right _ hlow
      _ = self.toNat * 2 ^ 24 := hvalue.symm
  have hlength : self.compact_size = size := by
    rw [compact_size, if_neg hne]
    omega
  rw [(get_compact_eq self).1, hlength, leading, hvalue, Nat.mul_div_cancel _ (Nat.two_pow_pos _)]

theorem flags_normalized {compact : UInt32} {word size : Nat} (hflags : (set_compact compact).2 = (false, false))
    (hword : (compact &&& 0x007fffff).toNat = word) (hsize : (compact >>> 24).toNat = size) (hlow : 2 ^ 15 ≤ word)
    (hdvd : 2 ^ (8 * (3 - size)) ∣ word) :
    compact &&& 0x00800000 = 0 ∧ (33 ≤ size → size = 33 ∧ word < 2 ^ 16) := by
  have hne : (if size ≤ 3 then word >>> (8 * (3 - size)) else word) ≠ 0 := by
    split
    · rw [Nat.shiftRight_eq_div_pow]
      exact (Nat.div_pos (Nat.le_of_dvd (by omega) hdvd) (Nat.two_pow_pos _)).ne'
    · omega
  unfold set_compact at hflags
  dsimp only at hflags
  rw [hword, hsize] at hflags
  obtain ⟨hnegative, hoverflow⟩ := Prod.mk.inj hflags
  rw [bne_iff_ne.mpr hne, Bool.true_and] at hnegative hoverflow
  refine ⟨bne_eq_false_iff_eq.mp hnegative, fun hlarge => ?_⟩
  rw [if_neg (by omega), Bool.or_eq_false_iff, Bool.or_eq_false_iff, Bool.and_eq_false_iff, Bool.and_eq_false_iff,
    decide_eq_false_iff_not, decide_eq_false_iff_not, decide_eq_false_iff_not, decide_eq_false_iff_not,
    decide_eq_false_iff_not] at hoverflow
  omega

/-- Encoding and decoding a target clears the bytes that the mantissa does not keep, which happens
    once, and sets neither flag. A target that decodes without a flag is encoded as it was exactly
    if its mantissa is normalized. -/
theorem compact_round_trips :
    (∀ x : ArithUint256,
      set_compact (x.get_compact false) = (BitVec.ofNat 256 x.rounded, false, false) ∧ x.rounded ≤ x.toNat ∧
        (set_compact (get_compact (BitVec.ofNat 256 x.rounded) false)).1 = BitVec.ofNat 256 x.rounded) ∧
      ∀ compact : UInt32, (set_compact compact).2 = (false, false) →
        ((set_compact compact).1.get_compact false = compact ↔ Normalized compact) := by
  refine ⟨fun x => ⟨set_compact_get_compact x, rounded_le x, ?_⟩, fun compact hflags => ⟨fun heq => ?_, ?_⟩⟩
  · rw [set_compact_get_compact, rounded_rounded]
  · rw [← heq]
    exact normalized_get_compact _
  rintro (rfl | ⟨hlow, hdvd⟩)
  · decide
  obtain ⟨hsign, hfits⟩ := flags_normalized hflags rfl rfl hlow hdvd
  obtain ⟨hpacked, hword, hsize⟩ := packed_mantissa hsign
  generalize (compact &&& 0x007fffff).toNat = word at hlow hdvd hfits hpacked hword
  generalize (compact >>> 24).toNat = size at hdvd hfits hpacked hsize
  rw [← hpacked]
  refine get_compact_value hlow hword hsize hdvd ?_
  have hexact : word * 2 ^ (8 * size) / 2 ^ 24 * 2 ^ 24 = word * 2 ^ (8 * size) := by
    apply Nat.div_mul_cancel
    by_cases hle : size ≤ 3
    · calc 2 ^ 24 = 2 ^ (8 * (3 - size)) * 2 ^ (8 * size) := by rw [← pow_add]; congr 1; omega
        _ ∣ word * 2 ^ (8 * size) := Nat.mul_dvd_mul_right hdvd _
    · exact Dvd.dvd.mul_left (pow_dvd_pow 2 (by omega)) _
  have hlt : word * 2 ^ (8 * size) / 2 ^ 24 < 2 ^ 256 := by
    rw [Nat.div_lt_iff_lt_mul (Nat.two_pow_pos _)]
    by_cases hlarge : 33 ≤ size
    · obtain ⟨rfl, hshort⟩ := hfits hlarge
      calc word * 2 ^ (8 * 33) < 2 ^ 16 * 2 ^ (8 * 33) := Nat.mul_lt_mul_of_pos_right hshort (Nat.two_pow_pos _)
        _ = 2 ^ 256 * 2 ^ 24 := by rw [← pow_add, ← pow_add]
    · calc word * 2 ^ (8 * size) < 2 ^ 23 * 2 ^ (8 * size) := Nat.mul_lt_mul_of_pos_right hword (Nat.two_pow_pos _)
        _ = 2 ^ (23 + 8 * size) := (pow_add 2 23 (8 * size)).symm
        _ ≤ 2 ^ (256 + 24) := Nat.pow_le_pow_right (by decide) (by omega)
        _ = 2 ^ 256 * 2 ^ 24 := pow_add 2 256 24
  rw [value_packed hword hsize, BitVec.toNat_ofNat, Nat.mod_eq_of_lt hlt, hexact]

/-- The easiest target of the regression-test network. -/
theorem compact_round_trips_regtest : (set_compact 0x207fffff).1.get_compact false = 0x207fffff :=
  (compact_round_trips.2 0x207fffff (by decide)).mpr (.inr ⟨by decide, by decide⟩)

end ArithUint256

end qubitcoin.primitives
