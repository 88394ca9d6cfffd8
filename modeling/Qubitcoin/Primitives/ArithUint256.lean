import Qubitcoin.Chain.Index
import Qubitcoin.Lib.FixedWidth

/-! `qubitcoin-primitives/arith_uint256.rs` limb by limb, and the proof of work of a compact
    target. The rest of the development computes with `BitVec 256`, which stands for the
    number that the limbs spell. -/

namespace qubitcoin.arith_uint256

def WIDTH : Nat := 8

/-- Eight limbs, the least significant first. -/
structure ArithUint256 where
  pn : List UInt32
  length_pn : pn.length = WIDTH
  deriving DecidableEq

namespace ArithUint256

def zero : ArithUint256 := ⟨List.replicate WIDTH 0, rfl⟩

def from_u64 (b : UInt64) : ArithUint256 := ⟨[b.toUInt32, (b >>> 32).toUInt32, 0, 0, 0, 0, 0, 0], rfl⟩

variable (self rhs : ArithUint256)

def bits : Nat := limbs.size self.pn WIDTH

def compare_to : Ordering := limbs.compare self.pn rhs.pn WIDTH

def not : ArithUint256 := ⟨limbs.not self.pn, (limbs.length_not _).trans self.length_pn⟩

def neg : ArithUint256 := ⟨limbs.neg self.pn, (limbs.length_neg _).trans self.length_pn⟩

def add : ArithUint256 :=
  ⟨limbs.add 0 self.pn rhs.pn, (limbs.length_add (self.length_pn.trans rhs.length_pn.symm)).trans self.length_pn⟩

def sub : ArithUint256 := self.add rhs.neg

def mul_u32 (b32 : UInt32) : ArithUint256 := ⟨limbs.row b32 0 zero.pn self.pn, limbs.length_row.trans zero.length_pn⟩

/-- Limb `j` of the first factor adds a row from limb `j` of the product on. -/
def mul : ArithUint256 := ⟨limbs.rows rhs.pn self.pn zero.pn, limbs.length_rows.trans zero.length_pn⟩

def shl (shift : UInt32) : ArithUint256 := ⟨limbs.shl self.pn shift.toNat, (limbs.length_shl _ _).trans self.length_pn⟩

def shr (shift : UInt32) : ArithUint256 := ⟨limbs.shr self.pn shift.toNat, (limbs.length_shr _ _).trans self.length_pn⟩

def div : Except Panic ArithUint256 :=
  if rhs.bits = 0 then .error (.assertion_failed "Division by zero")
  else if self.bits < rhs.bits then .ok zero
  else
    let shift := self.bits - rhs.bits
    .ok ⟨limbs.divide (shift + 1) self.pn (rhs.shl (UInt32.ofNat shift)).pn zero.pn,
      limbs.length_divide.trans zero.length_pn⟩

/-- Decode a compact target: the value, the sign flag and the overflow flag. -/
def set_compact (compact : UInt32) : ArithUint256 × Bool × Bool :=
  let n_size := (compact >>> 24).toNat
  let n_word := compact &&& 0x007fffff
  let n_word := if n_size ≤ 3 then n_word >>> UInt32.ofNat (8 * (3 - n_size)) else n_word
  let value := if n_size ≤ 3 then from_u64 n_word.toUInt64
    else (from_u64 n_word.toUInt64).shl (UInt32.ofNat (8 * (n_size - 3)))
  let negative := n_word != 0 && (compact &&& 0x00800000) != 0
  let overflow := n_word != 0 && (decide (34 < n_size) || (decide (0xff < n_word) && decide (33 < n_size)) ||
    (decide (0xffff < n_word) && decide (32 < n_size)))
  (value, negative, overflow)

end ArithUint256

/-- The expected number of hashes for a compact target. -/
def get_bits_proof (bits : UInt32) : Except Panic ArithUint256 :=
  let (target, negative, overflow) := ArithUint256.set_compact bits
  if negative || overflow || target == .zero then .ok .zero
  else do
    let quotient ← target.not.div (target.add (.from_u64 1))
    pure (quotient.add (.from_u64 1))

namespace ArithUint256

def value (self : ArithUint256) : Nat := limbs.value self.pn

/-- The same number as the rest of the development has it. -/
def to_bits (self : ArithUint256) : primitives.ArithUint256 := BitVec.ofNat 256 self.value

variable {self rhs : ArithUint256}

theorem value_lt (self : ArithUint256) : self.value < 2 ^ 256 := by
  have hlt := limbs.value_lt self.pn
  rwa [self.length_pn] at hlt

theorem toNat_to_bits (self : ArithUint256) : self.to_bits.toNat = self.value := by
  rw [to_bits, BitVec.toNat_ofNat, Nat.mod_eq_of_lt self.value_lt]

theorem eq_of_value (heq : self.value = rhs.value) : self = rhs := by
  cases self with
  | mk left hleft =>
    cases rhs with
    | mk right hright =>
      obtain rfl := limbs.value_injective (hleft.trans hright.symm) heq
      rfl

theorem value_zero : zero.value = 0 := limbs.value_replicate_zero WIDTH

theorem value_from_u64 (b : UInt64) : (from_u64 b).value = b.toNat := by
  have hb := b.toNat_lt
  show b.toUInt32.toNat + 2 ^ 32 * ((b >>> 32).toUInt32.toNat + 2 ^ 32 * 0) = b.toNat
  rw [limbs.toNat_limb, limbs.toNat_limb, limbs.toNat_high]
  omega

theorem bits_eq (self : ArithUint256) : self.bits = Nat.size self.value := by
  rw [bits, limbs.size_eq self.length_pn.ge, ← self.length_pn, List.take_length]
  rfl

theorem compare_to_eq (self rhs : ArithUint256) : self.compare_to rhs = compare self.value rhs.value := by
  rw [compare_to, limbs.compare_eq self.length_pn.ge rhs.length_pn.ge, List.take_of_length_le self.length_pn.le,
    List.take_of_length_le rhs.length_pn.le]
  rfl

theorem value_add (self rhs : ArithUint256) : (self.add rhs).value = (self.value + rhs.value) % 2 ^ 256 := by
  have hadd := limbs.value_add (self.length_pn.trans rhs.length_pn.symm)
  rwa [self.length_pn] at hadd

theorem value_not (self : ArithUint256) : self.not.value + self.value + 1 = 2 ^ 256 := by
  have hnot := limbs.value_not self.pn
  rwa [self.length_pn] at hnot

theorem value_mul (self rhs : ArithUint256) : (self.mul rhs).value = self.value * rhs.value % 2 ^ 256 := by
  have hmul := @limbs.value_rows self.pn rhs.pn
  rwa [rhs.length_pn] at hmul

theorem value_shl (self : ArithUint256) (shift : UInt32) :
    (self.shl shift).value = self.value * 2 ^ shift.toNat % 2 ^ 256 := by
  have hshl := limbs.value_shl self.pn shift.toNat
  rwa [self.length_pn] at hshl

theorem value_shr (self : ArithUint256) (shift : UInt32) : (self.shr shift).value = self.value / 2 ^ shift.toNat :=
  limbs.value_shr self.pn shift.toNat

theorem lt_two_pow_bits (self : ArithUint256) : self.value < 2 ^ self.bits := by
  rw [bits_eq]
  exact Nat.lt_size_self _

theorem two_pow_le_of_lt_bits {n : Nat} (hn : n < self.bits) : 2 ^ n ≤ self.value := by
  rw [bits_eq] at hn
  exact Nat.lt_size.mp hn

theorem bits_le (self : ArithUint256) : self.bits ≤ 256 := by
  rw [bits_eq]
  exact Nat.size_le.mpr self.value_lt

theorem div_eq (hrhs : rhs.value ≠ 0) : ∃ quotient, self.div rhs = .ok quotient ∧ quotient.value = self.value / rhs.value := by
  have hpos := Nat.pos_of_ne_zero hrhs
  have hself := self.lt_two_pow_bits
  have hdivisor := rhs.lt_two_pow_bits
  have hwidth := self.bits_le
  have hbits : rhs.bits ≠ 0 := by
    rw [bits_eq]
    exact (Nat.size_pos.mpr hpos).ne'
  unfold div
  rw [if_neg hbits]
  split
  · next hless =>
    have hlow := two_pow_le_of_lt_bits hless
    exact ⟨zero, rfl, by rw [value_zero, Nat.div_eq_of_lt (by omega)]⟩
  · next hle =>
    refine ⟨_, rfl, ?_⟩
    show limbs.value (limbs.divide (self.bits - rhs.bits + 1) self.pn
      (rhs.shl (UInt32.ofNat (self.bits - rhs.bits))).pn zero.pn) = self.value / rhs.value
    generalize hshift : self.bits - rhs.bits = shift
    have htoNat : (UInt32.ofNat shift).toNat = shift := UInt32.toNat_ofNat_of_lt' (by rw [UInt32.size]; omega)
    have htop : rhs.value * 2 ^ shift < 2 ^ 256 := by
      calc rhs.value * 2 ^ shift < 2 ^ rhs.bits * 2 ^ shift := Nat.mul_lt_mul_of_pos_right hdivisor (Nat.two_pow_pos _)
        _ = 2 ^ self.bits := by rw [← pow_add]; congr 1; omega
        _ ≤ 2 ^ 256 := Nat.pow_le_pow_right (by decide) hwidth
    have hdiv : limbs.value (rhs.shl (UInt32.ofNat shift)).pn = rhs.value * 2 ^ shift := by
      have hshl := rhs.value_shl (UInt32.ofNat shift)
      rwa [htoNat, Nat.mod_eq_of_lt htop] at hshl
    have hnum : self.value < rhs.value * 2 ^ (shift + 1) := by
      have hhalf : 2 ^ (rhs.bits - 1) ≤ rhs.value := two_pow_le_of_lt_bits (by omega)
      calc self.value < 2 ^ self.bits := hself
        _ = 2 ^ (rhs.bits - 1) * 2 ^ (shift + 1) := by rw [← pow_add]; congr 1; omega
        _ ≤ rhs.value * 2 ^ (shift + 1) := Nat.mul_le_mul_right _ hhalf
    have hzero : limbs.value zero.pn = 0 := value_zero
    have hquotient := limbs.value_divide hpos (self.length_pn.trans (rhs.shl (UInt32.ofNat shift)).length_pn.symm)
      (by rw [zero.length_pn]; show shift + 1 ≤ 32 * 8; omega) hnum (fun _ => hdiv) (by rw [hzero]; exact Nat.dvd_zero _)
    rw [hzero, Nat.zero_add] at hquotient
    exact hquotient

theorem to_bits_eq_iff {x : primitives.ArithUint256} : self.to_bits = x ↔ self.value = x.toNat := by
  rw [← BitVec.toNat_inj, toNat_to_bits]

theorem to_bits_add (self rhs : ArithUint256) : (self.add rhs).to_bits = self.to_bits + rhs.to_bits := by
  rw [to_bits_eq_iff, value_add, BitVec.toNat_add, toNat_to_bits, toNat_to_bits]

theorem to_bits_not (self : ArithUint256) : self.not.to_bits = ~~~self.to_bits := by
  have hnot := self.value_not
  rw [to_bits_eq_iff, BitVec.toNat_not, toNat_to_bits]
  omega

theorem to_bits_shl (self : ArithUint256) (shift : UInt32) : (self.shl shift).to_bits = self.to_bits <<< shift.toNat := by
  rw [to_bits_eq_iff, value_shl, BitVec.toNat_shiftLeft, toNat_to_bits, Nat.shiftLeft_eq]

theorem to_bits_div (hrhs : rhs.value ≠ 0) :
    ∃ quotient, self.div rhs = .ok quotient ∧ quotient.to_bits = self.to_bits / rhs.to_bits := by
  obtain ⟨quotient, hdiv, hvalue⟩ := @div_eq self rhs hrhs
  refine ⟨quotient, hdiv, ?_⟩
  rw [to_bits_eq_iff, hvalue, BitVec.toNat_udiv, toNat_to_bits, toNat_to_bits]

theorem to_bits_zero : zero.to_bits = 0 := by
  rw [to_bits_eq_iff, value_zero]
  rfl

theorem eq_zero_iff : self = zero ↔ self.to_bits = 0 := by
  constructor
  · rintro rfl
    exact to_bits_zero
  · intro heq
    rw [to_bits_eq_iff] at heq
    exact eq_of_value (heq.trans value_zero.symm)

theorem toNat_shr_word (n_word : UInt32) {n_size : Nat} (hsize : n_size ≤ 3) :
    (n_word >>> UInt32.ofNat (8 * (3 - n_size))).toNat = n_word.toNat >>> (8 * (3 - n_size)) := by
  rw [UInt32.toNat_shiftRight, UInt32.toNat_ofNat', Nat.mod_mod_of_dvd _ (by decide), Nat.mod_eq_of_lt (by omega)]

theorem to_bits_set_compact (compact : UInt32) :
    (set_compact compact).1.to_bits = (primitives.ArithUint256.set_compact compact).1 ∧
      (set_compact compact).2 = (primitives.ArithUint256.set_compact compact).2 := by
  have hflags : ∀ n_word : UInt32, (n_word != 0) = (n_word.toNat != 0) ∧
      decide (0xff < n_word) = decide (0xff < n_word.toNat) ∧ decide (0xffff < n_word) = decide (0xffff < n_word.toNat) := by
    intro n_word
    refine ⟨?_, rfl, rfl⟩
    rw [Bool.eq_iff_iff, bne_iff_ne, bne_iff_ne]
    exact not_congr UInt32.toNat_inj.symm
  have hword : (from_u64 (compact &&& 0x007fffff).toUInt64).to_bits = BitVec.ofNat 256 (compact &&& 0x007fffff).toNat := by
    rw [to_bits, value_from_u64, UInt32.toNat_toUInt64]
  have hsize : (compact >>> 24).toNat < 256 := by
    have hlt := compact.toNat_lt
    rw [UInt32.toNat_shiftRight, show (24 : UInt32).toNat % 32 = 24 from rfl, Nat.shiftRight_eq_div_pow]
    omega
  unfold set_compact primitives.ArithUint256.set_compact
  generalize (compact >>> 24).toNat = n_size at hsize ⊢
  by_cases hsmall : n_size ≤ 3
  · have hshifted := toNat_shr_word (compact &&& 0x007fffff) hsmall
    simp only [if_pos hsmall]
    obtain ⟨hne, hlow, hmiddle⟩ := hflags ((compact &&& 0x007fffff) >>> UInt32.ofNat (8 * (3 - n_size)))
    rw [hne, hlow, hmiddle, hshifted, to_bits, value_from_u64, UInt32.toNat_toUInt64, hshifted]
    exact ⟨rfl, rfl⟩
  · simp only [if_neg hsmall]
    obtain ⟨hne, hlow, hmiddle⟩ := hflags (compact &&& 0x007fffff)
    have hshift : (UInt32.ofNat (8 * (n_size - 3))).toNat = 8 * (n_size - 3) :=
      UInt32.toNat_ofNat_of_lt' (by rw [UInt32.size]; omega)
    rw [hne, hlow, hmiddle, to_bits_shl, hword, hshift]
    exact ⟨rfl, rfl⟩

theorem value_set_compact_lt (compact : UInt32) : (set_compact compact).1.value + 1 < 2 ^ 256 := by
  unfold set_compact
  dsimp only
  split
  · rw [value_from_u64, UInt32.toNat_toUInt64]
    exact (Nat.succ_le_of_lt (UInt32.toNat_lt _)).trans_lt (by decide)
  · next hlarge =>
    have hsize : (compact >>> 24).toNat < 256 := by
      have hlt := compact.toNat_lt
      rw [UInt32.toNat_shiftRight, show (24 : UInt32).toNat % 32 = 24 from rfl, Nat.shiftRight_eq_div_pow]
      omega
    have hlt := ((from_u64 (compact &&& 0x007fffff).toUInt64).shl (UInt32.ofNat (8 * ((compact >>> 24).toNat - 3)))).value_lt
    have heven : 2 ∣ ((from_u64 (compact &&& 0x007fffff).toUInt64).shl (UInt32.ofNat (8 * ((compact >>> 24).toNat - 3)))).value := by
      rw [value_shl, UInt32.toNat_ofNat_of_lt' (by rw [UInt32.size]; omega)]
      refine (Nat.dvd_mod_iff (dvd_pow_self 2 (by decide))).mpr (Dvd.dvd.mul_left (dvd_pow_self 2 ?_) _)
      omega
    omega

end ArithUint256

/-- The proof of work is the one that the rest of the development computes. -/
theorem get_bits_proof_eq (bits : UInt32) :
    ∃ proof, get_bits_proof bits = .ok proof ∧ proof.to_bits = chain.get_bits_proof bits := by
  obtain ⟨htarget, hflags⟩ := ArithUint256.to_bits_set_compact bits
  have hmax := ArithUint256.value_set_compact_lt bits
  unfold get_bits_proof chain.get_bits_proof
  generalize ArithUint256.set_compact bits = decoded at htarget hflags hmax ⊢
  generalize primitives.ArithUint256.set_compact bits = wide_decoded at htarget hflags ⊢
  obtain ⟨target, negative, overflow⟩ := decoded
  obtain ⟨wide, wide_negative, wide_overflow⟩ := wide_decoded
  dsimp only at htarget hflags hmax ⊢
  obtain ⟨rfl, rfl⟩ := Prod.mk.inj hflags
  subst htarget
  have hzero : (target == .zero) = (target.to_bits == 0) := by
    rw [Bool.eq_iff_iff, beq_iff_eq, beq_iff_eq]
    exact ArithUint256.eq_zero_iff
  rw [hzero]
  cases negative || overflow || target.to_bits == 0 with
  | true => exact ⟨.zero, rfl, ArithUint256.to_bits_zero⟩
  | false =>
    have hone : (ArithUint256.from_u64 1).to_bits = 1 := by
      rw [ArithUint256.to_bits, ArithUint256.value_from_u64]
      rfl
    have hnext : (target.add (.from_u64 1)).value ≠ 0 := by
      rw [ArithUint256.value_add, ArithUint256.value_from_u64, show (1 : UInt64).toNat = 1 from rfl, Nat.mod_eq_of_lt hmax]
      omega
    obtain ⟨quotient, hdiv, hquotient⟩ := @ArithUint256.to_bits_div target.not _ hnext
    refine ⟨quotient.add (.from_u64 1), ?_, ?_⟩
    · show (target.not.div (target.add (.from_u64 1)) >>= _) = _
      rw [hdiv]
      rfl
    · rw [ArithUint256.to_bits_add, hquotient, ArithUint256.to_bits_not, ArithUint256.to_bits_add, hone]
      rfl

theorem complement_div_add_one {n t : Nat} (ht : t < n) : (n - 1 - t) / (t + 1) + 1 = n / (t + 1) := by
  rw [← Nat.add_div_right _ (Nat.succ_pos t)]
  congr 1
  omega

/-- The arithmetic of 256 bits is exact. -/
theorem arithmetic_exact :
    (∀ a b : ArithUint256, (a.mul b).value = a.value * b.value % 2 ^ 256) ∧
    (∀ a b : ArithUint256, b.value ≠ 0 → ∃ quotient, a.div b = .ok quotient ∧ quotient.value = a.value / b.value) ∧
    (∀ (a : ArithUint256) (shift : UInt32), (a.shl shift).value = a.value * 2 ^ shift.toNat % 2 ^ 256 ∧
      (a.shr shift).value = a.value / 2 ^ shift.toNat) ∧
    (∀ (bits : UInt32) (target : ArithUint256), ArithUint256.set_compact bits = (target, false, false) → target.value ≠ 0 →
      ∃ proof, get_bits_proof bits = .ok proof ∧ proof.value = 2 ^ 256 / (target.value + 1)) := by
  refine ⟨ArithUint256.value_mul, fun a b => ArithUint256.div_eq,
    fun a shift => ⟨a.value_shl shift, a.value_shr shift⟩, fun bits target hcompact htarget => ?_⟩
  have hmax := ArithUint256.value_set_compact_lt bits
  rw [hcompact] at hmax
  dsimp only at hmax
  have hnot := target.value_not
  have hnext : (target.add (.from_u64 1)).value = target.value + 1 := by
    rw [ArithUint256.value_add, ArithUint256.value_from_u64, show (1 : UInt64).toNat = 1 from rfl, Nat.mod_eq_of_lt hmax]
  obtain ⟨quotient, hdiv, hquotient⟩ := @ArithUint256.div_eq target.not (target.add (.from_u64 1)) (by rw [hnext]; omega)
  have hformula := complement_div_add_one target.value_lt
  have hsum : (quotient.add (.from_u64 1)).value = 2 ^ 256 / (target.value + 1) := by
    have hless : 2 ^ 256 / (target.value + 1) < 2 ^ 256 := Nat.div_lt_self (by decide) (by omega)
    rw [ArithUint256.value_add, ArithUint256.value_from_u64, hquotient, hnext, show (1 : UInt64).toNat = 1 from rfl,
      show target.not.value = 2 ^ 256 - 1 - target.value by omega, hformula, Nat.mod_eq_of_lt hless]
  refine ⟨quotient.add (.from_u64 1), ?_, hsum⟩
  have hne : (target == ArithUint256.zero) = false := by
    rw [beq_eq_false_iff_ne]
    rintro rfl
    exact htarget ArithUint256.value_zero
  unfold get_bits_proof
  rw [hcompact]
  dsimp only
  rw [hne, hdiv]
  rfl

/-- The easiest target of the regression test network: a hash in two is below it. -/
theorem arithmetic_exact_regtest :
    ∃ proof, get_bits_proof 0x207fffff = .ok proof ∧
      proof.value = 2 ^ 256 / ((ArithUint256.set_compact 0x207fffff).1.value + 1) :=
  arithmetic_exact.2.2.2 0x207fffff _ (by decide +kernel) (by decide +kernel)

end qubitcoin.arith_uint256
