import Qubitcoin.Crypto.Sha256
import Qubitcoin.Lib.Limbs
import Qubitcoin.Lib.PseudoMersenne

/-! `qubitcoin-crypto/muhash.rs`: the hash of a set as a product modulo a prime, updated
    with each element that enters or leaves the set. -/

open qubitcoin.primitives pseudo_mersenne

namespace qubitcoin.muhash

/-- The difference between `2 ^ 3072` and the prime. -/
def PRIME_DIFF : UInt64 := 1103717

def LIMBS : Nat := 96

/-- A number of 3072 bits. -/
structure Num3072 where
  limbs : List UInt32
  length_limbs : limbs.length = LIMBS
  deriving DecidableEq, Repr

def Num3072.one : Num3072 := ⟨1 :: List.replicate (LIMBS - 1) 0, rfl⟩

def Num3072.from_bytes (bytes : List UInt8) : Num3072 where
  limbs := (List.range LIMBS).map fun i => UInt32.ofNat (littleEndian.ofBytes ((bytes.drop (i * 4)).take 4))
  length_limbs := by rw [List.length_map, List.length_range]

def Num3072.to_bytes (self : Num3072) : List UInt8 := self.limbs.flatMap fun limb => littleEndian.toBytes 4 limb.toNat

def Num3072.is_zero (self : Num3072) : Bool := self.limbs.all (· == 0)

/-- Whether the number is at least the prime. -/
def Num3072.is_overflow (self : Num3072) : Bool :=
  let p_limb0 : UInt32 := (0x100000000 - PRIME_DIFF).toUInt32
  self.limbs.tail.reverse.all (fun limb => !decide (limb < 0xFFFFFFFF)) && decide (p_limb0 ≤ self.limbs.headD 0)

/-- Subtract the prime if the number is at least that: add the difference and drop the
    carry. -/
def Num3072.reduce_once (self : Num3072) : Num3072 :=
  if self.is_overflow then
    ⟨(limbs.add_carry PRIME_DIFF self.limbs).1, limbs.length_add_carry.trans self.length_limbs⟩
  else self

/-- A number of twice the length, one limb in each word. -/
structure Wide where
  words : List UInt64
  length_words : words.length = LIMBS * 2

/-- The lower half, with the upper half times the difference added, and the carry. -/
def Wide.fold_high (wide : Wide) : Num3072 × UInt64 :=
  let result := limbs.add_mul PRIME_DIFF 0 (wide.words.drop LIMBS) (wide.words.take LIMBS)
  ({ limbs := result.1.map UInt64.toUInt32
     length_limbs := by
       have hhigh : (wide.words.drop LIMBS).length = LIMBS := by rw [List.length_drop, wide.length_words]; rfl
       have hlow : (wide.words.take LIMBS).length = LIMBS := by rw [List.length_take, wide.length_words]; rfl
       rw [List.length_map, limbs.length_add_mul (hhigh.trans hlow.symm), hlow] }, result.2)

/-- Fold a carry back in; the carry out is dropped. -/
def Num3072.fold_carry (self : Num3072) (carry : UInt64) : Num3072 :=
  if 0 < carry then
    ⟨(limbs.add_carry (carry * PRIME_DIFF) self.limbs).1, limbs.length_add_carry.trans self.length_limbs⟩
  else self

/-- Fold the upper half in, then the carry, and reduce. -/
def Num3072.reduce (wide : Wide) : Num3072 :=
  let (low, carry) := wide.fold_high
  (low.fold_carry carry).reduce_once

/-- The product of all pairs of limbs, row by row. -/
def Num3072.mul_wide (self other : Num3072) : Wide where
  words := limbs.mul_rows other.limbs self.limbs (List.replicate (LIMBS * 2) 0)
  length_words := by rw [limbs.length_mul_rows, List.length_replicate]

def Num3072.mul_mod (self other : Num3072) : Num3072 := .reduce (self.mul_wide other)

/-- The exponent of the inverse, two less than the prime. -/
def exponent : List UInt32 := (0xFFFFFFFF - (PRIME_DIFF + 1)).toUInt32 :: List.replicate (LIMBS - 1) 0xFFFFFFFF

/-- Square, and multiply if the bit is set. -/
def Num3072.inverse_step (self result : Num3072) (bit : Nat) : Num3072 :=
  let result := result.mul_mod result
  if limbs.bit exponent bit then result.mul_mod self else result

/-- The power of two less than the prime, from the bit below the highest down. -/
def Num3072.mod_inverse (self : Num3072) : Num3072 := (List.range 3071).reverse.foldl self.inverse_step self

structure MuHash where
  numerator : Num3072
  denominator : Num3072

def MuHash.new : MuHash := ⟨.one, .one⟩

section

-- The hash function of `bitcoin_hashes`.
variable (sha256 : List UInt8 → List UInt8)

/-- The number of an element: its hash, expanded by hashes with a counter. -/
def hash_to_num (data : List UInt8) : Num3072 :=
  let seed := sha256 data
  let expanded := (List.range 12).flatMap fun i => sha256 (seed ++ littleEndian.toBytes 4 i)
  let num := Num3072.from_bytes expanded
  let num : Num3072 := if num.is_zero then ⟨num.limbs.set 0 1, List.length_set.trans num.length_limbs⟩ else num
  num.reduce_once

def MuHash.insert (self : MuHash) (data : List UInt8) : MuHash :=
  { self with numerator := self.numerator.mul_mod (hash_to_num sha256 data) }

def MuHash.remove (self : MuHash) (data : List UInt8) : MuHash :=
  { self with denominator := self.denominator.mul_mod (hash_to_num sha256 data) }

def MuHash.combine (self other : MuHash) : MuHash :=
  ⟨self.numerator.mul_mod other.numerator, self.denominator.mul_mod other.denominator⟩

def MuHash.finalize (self : MuHash) : List UInt8 :=
  let inv := self.denominator.mod_inverse
  sha256 (self.numerator.mul_mod inv).to_bytes

end

def Num3072.value (self : Num3072) : Nat := limbs.value self.limbs

@[irreducible] def PRIME : Nat := 2 ^ 3072 - PRIME_DIFF.toNat

theorem PRIME_eq : PRIME = 2 ^ 3072 - PRIME_DIFF.toNat := by decide +kernel

theorem PRIME_add : PRIME + PRIME_DIFF.toNat = 2 ^ 3072 := by decide +kernel

theorem PRIME_DIFF_bounds : PRIME_DIFF.toNat * PRIME_DIFF.toNat + 2 * PRIME_DIFF.toNat ≤ 2 ^ 3072 := by decide +kernel

theorem two_le_PRIME : 2 ≤ PRIME := by decide +kernel

theorem Num3072.value_lt (self : Num3072) : self.value < 2 ^ 3072 := by
  have hbits : 32 * self.limbs.length = 3072 := by rw [self.length_limbs]; rfl
  rw [← hbits]
  exact limbs.value_lt self.limbs

theorem Num3072.value_injective {left right : Num3072} (hvalue : left.value = right.value) : left = right := by
  have hlimbs := limbs.value_injective (left.length_limbs.trans right.length_limbs.symm) hvalue
  cases left
  cases right
  cases hlimbs
  rfl

theorem Num3072.value_one : Num3072.one.value = 1 := by
  unfold Num3072.value Num3072.one
  rw [limbs.value_cons, limbs.value_replicate_zero]
  rfl

theorem Num3072.is_overflow_iff (self : Num3072) : self.is_overflow = true ↔ PRIME ≤ self.value := by
  obtain ⟨digits, hlength⟩ := self
  cases digits with
  | nil => cases hlength
  | cons low rest =>
    have hrest : rest.length = 95 := Nat.succ.inj hlength
    have hmax := @limbs.value_add_one_eq rest
    have hlt := limbs.value_lt rest
    have hlow := low.toNat_lt
    have hpow : 2 ^ (32 * rest.length) * 2 ^ 32 = 2 ^ 3072 := by rw [hrest, ← pow_add]
    have hprime := PRIME_add
    have hdiff : PRIME_DIFF.toNat = 1103717 := rfl
    have hlimb : (0x100000000 - PRIME_DIFF).toUInt32 ≤ low ↔ 2 ^ 32 - 1103717 ≤ low.toNat := UInt32.le_iff_toNat_le
    have hall : (rest.reverse.all fun limb => !decide (limb < 0xFFFFFFFF)) = true ↔ ∀ limb ∈ rest, limb = 0xFFFFFFFF := by
      rw [List.all_eq_true]
      refine forall_congr' fun limb => ?_
      rw [List.mem_reverse, Bool.not_eq_true', decide_eq_false_iff_not, ← UInt32.toNat_inj, UInt32.lt_iff_toNat_lt]
      have := limb.toNat_lt
      have hlast : (0xFFFFFFFF : UInt32).toNat = 2 ^ 32 - 1 := rfl
      rw [hlast]
      exact imp_congr_right fun _ => by omega
    unfold Num3072.is_overflow Num3072.value
    dsimp only
    rw [List.tail_cons, List.headD_cons, Bool.and_eq_true, decide_eq_true_iff, hall, ← hmax, hlimb, limbs.value_cons]
    generalize limbs.value rest = value at hlt hmax ⊢
    generalize 2 ^ (32 * rest.length) = top at hlt hpow ⊢
    omega

theorem Num3072.bits (self : Num3072) : 32 * self.limbs.length = 3072 := by
  rw [self.length_limbs]
  rfl

theorem Num3072.reduce_once_value (self : Num3072) : self.reduce_once.value = self.value % PRIME := by
  have hlt := self.value_lt
  have hprime := PRIME_add
  have hdiff := PRIME_DIFF_bounds
  unfold Num3072.reduce_once
  split
  · next hoverflow =>
    rw [self.is_overflow_iff] at hoverflow
    show limbs.value (limbs.add_carry PRIME_DIFF self.limbs).1 = self.value % PRIME
    rw [limbs.add_carry_eq self.limbs (by decide), self.bits]
    change (PRIME_DIFF.toNat + self.value) % 2 ^ 3072 = self.value % PRIME
    have hsquare := Nat.le_mul_self PRIME_DIFF.toNat
    rw [Nat.mod_eq_sub_mod hoverflow, Nat.mod_eq_sub_mod (by omega), Nat.mod_eq_of_lt (by omega),
      Nat.mod_eq_of_lt (by omega)]
    omega
  · next hfits =>
    rw [self.is_overflow_iff, Nat.not_le] at hfits
    exact (Nat.mod_eq_of_lt hfits).symm

theorem Wide.fold_high_value (wide : Wide) (hsmall : limbs.Small wide.words) :
    wide.fold_high.1.value = fold (2 ^ 3072) PRIME_DIFF.toNat (limbs.wide_value wide.words) % 2 ^ 3072 ∧
      wide.fold_high.2.toNat = fold (2 ^ 3072) PRIME_DIFF.toNat (limbs.wide_value wide.words) / 2 ^ 3072 ∧
      wide.fold_high.2.toNat < 2 ^ 32 := by
  have hhigh : (wide.words.drop LIMBS).length = LIMBS := by rw [List.length_drop, wide.length_words]; rfl
  have hlow : (wide.words.take LIMBS).length = LIMBS := by rw [List.length_take, wide.length_words]; rfl
  have hbits : 32 * (wide.words.take LIMBS).length = 3072 := by rw [hlow]; rfl
  have hhighs : limbs.Small (wide.words.drop LIMBS) := fun word hword => hsmall word (List.mem_of_mem_drop hword)
  have hlows : limbs.Small (wide.words.take LIMBS) := fun word hword => hsmall word (List.mem_of_mem_take hword)
  have hlt := hlows.wide_value_lt
  have hsplit := limbs.wide_value_append (wide.words.take LIMBS) (wide.words.drop LIMBS)
  rw [List.take_append_drop] at hsplit
  obtain ⟨hresult, hvalue, hcarry, hcarry_lt⟩ :=
    @limbs.add_mul_eq PRIME_DIFF (by decide) _ _ (hhigh.trans hlow.symm) hhighs hlows
  rw [hbits] at hlt hsplit hvalue hcarry
  have hfold : fold (2 ^ 3072) PRIME_DIFF.toNat (limbs.wide_value wide.words) =
      limbs.wide_value (wide.words.drop LIMBS) * PRIME_DIFF.toNat + limbs.wide_value (wide.words.take LIMBS) := by
    obtain ⟨hdiv, hmod⟩ := (Nat.div_mod_unique (Nat.two_pow_pos _)).mpr ⟨hsplit.symm, hlt⟩
    unfold fold
    rw [hdiv, hmod]
    exact Nat.add_comm _ _
  rw [hfold]
  exact ⟨hresult.value_map.trans hvalue, hcarry, hcarry_lt⟩

theorem Num3072.fold_carry_value (self : Num3072) {carry : UInt64} (hcarry : carry.toNat < 2 ^ 32) :
    (self.fold_carry carry).value = (self.value + carry.toNat * PRIME_DIFF.toNat) % 2 ^ 3072 := by
  have hfits : carry.toNat * PRIME_DIFF.toNat < 2 ^ 32 * 1103718 :=
    Nat.mul_lt_mul_of_lt_of_lt hcarry (by decide)
  have hmul : (carry * PRIME_DIFF).toNat = carry.toNat * PRIME_DIFF.toNat := limbs.toNat_mul_eq (by omega)
  unfold Num3072.fold_carry
  split
  · show limbs.value (limbs.add_carry (carry * PRIME_DIFF) self.limbs).1 = _
    rw [limbs.add_carry_eq self.limbs (by omega), self.bits, hmul, Nat.add_comm]
    rfl
  · next hzero =>
    have hnone : carry.toNat = 0 := by
      rw [UInt64.lt_iff_toNat_lt] at hzero
      exact Nat.eq_zero_of_not_pos hzero
    rw [hnone, Nat.zero_mul, Nat.add_zero, Nat.mod_eq_of_lt self.value_lt]

theorem Num3072.reduce_value (wide : Wide) (hsmall : limbs.Small wide.words) :
    (Num3072.reduce wide).value = reduced (2 ^ 3072) PRIME_DIFF.toNat (limbs.wide_value wide.words) := by
  obtain ⟨hvalue, hcarry, hcarry_lt⟩ := wide.fold_high_value hsmall
  unfold Num3072.reduce
  rw [Num3072.reduce_once_value, Num3072.fold_carry_value _ hcarry_lt, hvalue, hcarry, PRIME_eq]
  rfl

theorem Num3072.mul_mod_value (a b : Num3072) :
    (a.mul_mod b).value = reduced (2 ^ 3072) PRIME_DIFF.toNat (a.value * b.value) := by
  have hzeros : List.replicate (LIMBS * 2) (0 : UInt64) =
      List.replicate b.limbs.length 0 ++ List.replicate a.limbs.length 0 := by
    rw [a.length_limbs, b.length_limbs, List.replicate_append_replicate]
    rfl
  have hnone : limbs.Small (List.replicate b.limbs.length 0) := by
    intro word hword
    rw [List.eq_of_mem_replicate hword]
    decide
  have hempty : limbs.wide_value (List.replicate b.limbs.length 0) = 0 := by
    unfold limbs.wide_value
    rw [List.map_replicate]
    exact Nat.ofDigits_replicate_zero
  obtain ⟨hsmall, hproduct⟩ := @limbs.mul_rows_spec b.limbs a.limbs _ List.length_replicate hnone
  rw [← hzeros] at hsmall hproduct
  rw [hempty, Nat.zero_add] at hproduct
  exact (Num3072.reduce_value (a.mul_wide b) hsmall).trans (congrArg _ hproduct)

/-- The reduction of a product drops a carry that is not zero. -/
def DropsCarry (product : Nat) : Prop := Spills (2 ^ 3072) PRIME_DIFF.toNat product

instance (product : Nat) : Decidable (DropsCarry product) :=
  inferInstanceAs (Decidable (Spills (2 ^ 3072) PRIME_DIFF.toNat product))

theorem Num3072.mul_mod_lt (a b : Num3072) : (a.mul_mod b).value < PRIME := by
  rw [a.mul_mod_value b, PRIME_eq]
  exact reduced_lt (by decide +kernel)

theorem Num3072.mul_mod_eq_iff (a b : Num3072) :
    (a.mul_mod b).value = a.value * b.value % PRIME ↔ ¬ DropsCarry (a.value * b.value) := by
  rw [a.mul_mod_value b, PRIME_eq]
  exact reduced_eq_iff (by decide) PRIME_DIFF_bounds (Nat.mul_lt_mul_of_lt_of_lt a.value_lt b.value_lt)

/-- No product on the way to the inverse drops a carry. -/
def InverseExact (a : Nat) : Prop := ∀ bit < 3071,
  ¬ DropsCarry ((a ^ ((PRIME - 2) / 2 ^ (bit + 1)) % PRIME) * (a ^ ((PRIME - 2) / 2 ^ (bit + 1)) % PRIME)) ∧
    ((PRIME - 2).testBit bit → ¬ DropsCarry ((a ^ (2 * ((PRIME - 2) / 2 ^ (bit + 1))) % PRIME) * a))

theorem exponent_bit (n : Nat) : limbs.bit exponent n = (PRIME - 2).testBit n := by
  have hvalue : limbs.value exponent = PRIME - 2 := by decide +kernel
  rw [limbs.bit_eq_testBit, hvalue]

theorem Num3072.inverse_step_value {self result : Num3072} (hexact : InverseExact self.value) {bit : Nat} (hbit : bit < 3071)
    (hresult : result.value = self.value ^ ((PRIME - 2) / 2 ^ (bit + 1)) % PRIME) :
    (self.inverse_step result bit).value = self.value ^ ((PRIME - 2) / 2 ^ bit) % PRIME := by
  obtain ⟨hsquare, hmultiply⟩ := hexact bit hbit
  have hsquared : (result.mul_mod result).value = self.value ^ (2 * ((PRIME - 2) / 2 ^ (bit + 1))) % PRIME := by
    rw [← hresult] at hsquare
    rw [(result.mul_mod_eq_iff result).mpr hsquare, hresult, square_pow_mod]
  unfold Num3072.inverse_step
  dsimp only
  rw [exponent_bit, div_two_pow (PRIME - 2) bit]
  cases hset : (PRIME - 2).testBit bit with
  | false =>
    rw [if_neg Bool.false_ne_true]
    exact hsquared
  | true =>
    have hlast := hmultiply hset
    rw [← hsquared] at hlast
    rw [if_pos rfl, ((result.mul_mod result).mul_mod_eq_iff self).mpr hlast, hsquared, mul_pow_mod]
    rfl

theorem Num3072.inverse_steps_value {self : Num3072} (hexact : InverseExact self.value) {n : Nat} : ∀ {result : Num3072},
    n ≤ 3071 → result.value = self.value ^ ((PRIME - 2) / 2 ^ n) % PRIME →
      ((List.range n).reverse.foldl self.inverse_step result).value = self.value ^ (PRIME - 2) % PRIME := by
  induction n with
  | zero =>
    intro result _ hresult
    rw [pow_zero, Nat.div_one] at hresult
    exact hresult
  | succ n ih =>
    intro result hn hresult
    rw [List.range_succ, List.reverse_append, List.reverse_singleton, List.singleton_append, List.foldl_cons]
    exact ih (by omega) (Num3072.inverse_step_value hexact hn hresult)

theorem Num3072.mod_inverse_value {self : Num3072} (hlt : self.value < PRIME) (hexact : InverseExact self.value) :
    self.mod_inverse.value = self.value ^ (PRIME - 2) % PRIME := by
  have hone : (PRIME - 2) / 2 ^ 3071 = 1 := by decide +kernel
  refine Num3072.inverse_steps_value hexact le_rfl ?_
  rw [hone, pow_one, Nat.mod_eq_of_lt hlt]

theorem Num3072.mul_mod_inverse {self : Num3072} (hlt : self.value < PRIME) (hexact : InverseExact self.value)
    (hlast : ¬ DropsCarry (self.value * (self.value ^ (PRIME - 2) % PRIME))) (hfermat : Fermat PRIME self.value) :
    (self.mul_mod self.mod_inverse).value = 1 := by
  have hinverse := Num3072.mod_inverse_value hlt hexact
  rw [← hinverse] at hlast
  rw [(self.mul_mod_eq_iff self.mod_inverse).mpr hlast, hinverse, Nat.mul_mod_mod]
  exact Eq.trans (hfermat.mul_pow two_le_PRIME) (Nat.mod_eq_of_lt two_le_PRIME)

variable (sha256 : List UInt8 → List UInt8)

/-- A sequence of operations; what is combined was built by such a sequence as well. -/
inductive Build where
  | new
  | insert (build : Build) (data : List UInt8)
  | remove (build : Build) (data : List UInt8)
  | combine (build other : Build)

def Build.run : Build → MuHash
  | .new => .new
  | .insert build data => build.run.insert sha256 data
  | .remove build data => build.run.remove sha256 data
  | .combine build other => build.run.combine other.run

def Build.inserted : Build → Multiset (List UInt8)
  | .new => 0
  | .insert build data => data ::ₘ build.inserted
  | .remove build _ => build.inserted
  | .combine build other => build.inserted + other.inserted

def Build.removed : Build → Multiset (List UInt8)
  | .new => 0
  | .insert build _ => build.removed
  | .remove build data => data ::ₘ build.removed
  | .combine build other => build.removed + other.removed

/-- How often an element is in the set; negative if it was removed more often than it
    entered. -/
def Build.net (self : Build) (data : List UInt8) : Int :=
  (self.inserted.count data : Int) - self.removed.count data

/-- The product of the numbers of elements. -/
def residue (elements : Multiset (List UInt8)) : Nat :=
  (elements.map fun data => (hash_to_num sha256 data).value).prod % PRIME

/-- No operation of the sequence drops a carry. -/
def Build.Exact : Build → Prop
  | .new => True
  | .insert build data => build.Exact ∧ ¬ DropsCarry (residue sha256 build.inserted * (hash_to_num sha256 data).value)
  | .remove build data => build.Exact ∧ ¬ DropsCarry (residue sha256 build.removed * (hash_to_num sha256 data).value)
  | .combine build other => build.Exact ∧ other.Exact ∧ ¬ DropsCarry (residue sha256 build.inserted * residue sha256 other.inserted) ∧
    ¬ DropsCarry (residue sha256 build.removed * residue sha256 other.removed)

/-- Nor does the last division, of which Fermat's theorem gives the inverse. -/
structure Build.Divides (build : Build) : Prop where
  inverse : InverseExact (residue sha256 build.removed)
  product : ¬ DropsCarry (residue sha256 build.inserted * (residue sha256 build.removed ^ (PRIME - 2) % PRIME))
  fermat : Fermat PRIME (residue sha256 build.removed)

variable {sha256}

theorem residue_cons (data : List UInt8) (elements : Multiset (List UInt8)) :
    residue sha256 elements * (hash_to_num sha256 data).value % PRIME = residue sha256 (data ::ₘ elements) := by
  unfold residue
  rw [Multiset.map_cons, Multiset.prod_cons, Nat.mod_mul_mod, Nat.mul_comm]

theorem residue_add (elements others : Multiset (List UInt8)) :
    residue sha256 elements * residue sha256 others % PRIME = residue sha256 (elements + others) := by
  unfold residue
  rw [Multiset.map_add, Multiset.prod_add, ← Nat.mul_mod]

theorem residue_lt (elements : Multiset (List UInt8)) : residue sha256 elements < PRIME :=
  Nat.mod_lt _ (Nat.zero_lt_of_lt two_le_PRIME)

theorem residue_zero : residue sha256 0 = 1 := Nat.mod_eq_of_lt two_le_PRIME

theorem Build.run_value {self : Build} (hexact : self.Exact sha256) :
    (self.run sha256).numerator.value = residue sha256 self.inserted ∧ (self.run sha256).denominator.value = residue sha256 self.removed := by
  induction self with
  | new =>
    show Num3072.one.value = residue sha256 0 ∧ Num3072.one.value = residue sha256 0
    rw [Num3072.value_one, residue_zero]
    exact ⟨rfl, rfl⟩
  | insert build data ih =>
    obtain ⟨hbuild, hproduct⟩ := hexact
    obtain ⟨hnumerator, hdenominator⟩ := ih hbuild
    rw [← hnumerator] at hproduct
    have hmul := ((build.run sha256).numerator.mul_mod_eq_iff (hash_to_num sha256 data)).mpr hproduct
    rw [hnumerator, residue_cons] at hmul
    exact ⟨hmul, hdenominator⟩
  | remove build data ih =>
    obtain ⟨hbuild, hproduct⟩ := hexact
    obtain ⟨hnumerator, hdenominator⟩ := ih hbuild
    rw [← hdenominator] at hproduct
    have hmul := ((build.run sha256).denominator.mul_mod_eq_iff (hash_to_num sha256 data)).mpr hproduct
    rw [hdenominator, residue_cons] at hmul
    exact ⟨hnumerator, hmul⟩
  | combine build other ih ih' =>
    obtain ⟨hbuild, hother, hnumerators, hdenominators⟩ := hexact
    obtain ⟨hnumerator, hdenominator⟩ := ih hbuild
    obtain ⟨hnumerator', hdenominator'⟩ := ih' hother
    rw [← hnumerator, ← hnumerator'] at hnumerators
    rw [← hdenominator, ← hdenominator'] at hdenominators
    have hmul := ((build.run sha256).numerator.mul_mod_eq_iff (other.run sha256).numerator).mpr hnumerators
    have hmul' := ((build.run sha256).denominator.mul_mod_eq_iff (other.run sha256).denominator).mpr hdenominators
    rw [hnumerator, hnumerator', residue_add] at hmul
    rw [hdenominator, hdenominator', residue_add] at hmul'
    exact ⟨hmul, hmul'⟩

theorem Build.quotient_value {self : Build} (hexact : self.Exact sha256) (hdivides : self.Divides sha256) :
    ((self.run sha256).numerator.mul_mod (self.run sha256).denominator.mod_inverse).value =
      residue sha256 self.inserted * residue sha256 self.removed ^ (PRIME - 2) % PRIME := by
  obtain ⟨hnumerator, hdenominator⟩ := Build.run_value hexact
  obtain ⟨hinverse, hproduct, _⟩ := hdivides
  have hlt := @residue_lt sha256 self.removed
  rw [← hdenominator] at hinverse hlt
  have hvalue := Num3072.mod_inverse_value hlt hinverse
  rw [hdenominator] at hvalue
  rw [← hnumerator, ← hvalue] at hproduct
  rw [(Num3072.mul_mod_eq_iff _ _).mpr hproduct, hnumerator, hvalue, Nat.mul_mod_mod]

theorem Build.finalize_eq {left right : Build} (hleft : left.Exact sha256) (hright : right.Exact sha256) (hdivides : left.Divides sha256)
    (hdivides' : right.Divides sha256) (hnet : ∀ data, left.net data = right.net data) :
    (left.run sha256).finalize sha256 = (right.run sha256).finalize sha256 := by
  have hcounts : left.inserted + right.removed = right.inserted + left.removed := by
    ext data
    have hdata := hnet data
    unfold Build.net at hdata
    rw [Multiset.count_add, Multiset.count_add]
    omega
  have hcross : residue sha256 left.inserted * residue sha256 right.removed ≡ residue sha256 right.inserted * residue sha256 left.removed [MOD PRIME] := by
    show _ % PRIME = _ % PRIME
    rw [residue_add, residue_add, hcounts]
  have hvalue : ((left.run sha256).numerator.mul_mod (left.run sha256).denominator.mod_inverse).value =
      ((right.run sha256).numerator.mul_mod (right.run sha256).denominator.mod_inverse).value := by
    rw [Build.quotient_value hleft hdivides, Build.quotient_value hright hdivides']
    exact quotient_modEq two_le_PRIME hdivides.fermat hdivides'.fermat hcross
  exact congrArg (fun quotient : Num3072 => sha256 quotient.to_bytes) (Num3072.value_injective hvalue)

/-- Multiplication is exact, and always fully reduced, unless it drops a carry; without
    dropped carries the inverse is one, and the hash of a set depends only on how often
    each element is in it. Fermat's theorem holds of all numbers but zero if the modulus is
    prime. -/
theorem muhash_exact_without_dropped_carry (a b : Num3072) (left right : Build) :
    (a.value < PRIME → b.value < PRIME → (a.mul_mod b).value < PRIME ∧
      ((a.mul_mod b).value = a.value * b.value % PRIME ↔ ¬ DropsCarry (a.value * b.value))) ∧
    (a.value < PRIME → Fermat PRIME a.value → InverseExact a.value →
      ¬ DropsCarry (a.value * (a.value ^ (PRIME - 2) % PRIME)) → a.mul_mod a.mod_inverse = .one) ∧
    (left.Exact sha256 → right.Exact sha256 → left.Divides sha256 → right.Divides sha256 → (∀ data, left.net data = right.net data) →
      (left.run sha256).finalize sha256 = (right.run sha256).finalize sha256) ∧
    (PRIME.Prime → ∀ n, 0 < n → n < PRIME → Fermat PRIME n) := by
  refine ⟨fun _ _ => ⟨a.mul_mod_lt b, a.mul_mod_eq_iff b⟩, fun hlt hfermat hexact hlast => ?_,
    fun hleft hright hdivides hdivides' hnet => Build.finalize_eq hleft hright hdivides hdivides' hnet,
    fun hprime n hpos hlt => fermat_of_prime hprime hpos hlt⟩
  apply Num3072.value_injective
  rw [Num3072.mul_mod_inverse hlt hexact hlast hfermat, Num3072.value_one]

/-- The powers on the way to the inverse of a residue, as far as no product drops a carry. -/
def inverse_chain (a : Nat) : Nat → Nat → Option Nat
  | 0, power => some power
  | bit + 1, power =>
    if DropsCarry (power * power) then none
    else if (PRIME - 2).testBit bit then
      if DropsCarry (power * power % PRIME * a) then none else inverse_chain a bit (power * power % PRIME * a % PRIME)
    else inverse_chain a bit (power * power % PRIME)

theorem inverse_chain_eq_some {a last n : Nat}
    (hchain : inverse_chain a n (a ^ ((PRIME - 2) / 2 ^ n) % PRIME) = some last) :
    (∀ bit < n,
      ¬ DropsCarry ((a ^ ((PRIME - 2) / 2 ^ (bit + 1)) % PRIME) * (a ^ ((PRIME - 2) / 2 ^ (bit + 1)) % PRIME)) ∧
      ((PRIME - 2).testBit bit → ¬ DropsCarry ((a ^ (2 * ((PRIME - 2) / 2 ^ (bit + 1))) % PRIME) * a))) ∧
    a ^ (PRIME - 2) % PRIME = last := by
  induction n with
  | zero =>
    rw [pow_zero, Nat.div_one] at hchain
    exact ⟨fun bit hbit => absurd hbit (Nat.not_lt_zero bit), Option.some.inj hchain⟩
  | succ n ih =>
    unfold inverse_chain at hchain
    split at hchain
    · cases hchain
    · next hsquare =>
      rw [square_pow_mod] at hchain
      have hpower := div_two_pow (PRIME - 2) n
      cases hset : (PRIME - 2).testBit n with
      | false =>
        rw [hset, Bool.toNat_false, Nat.add_zero] at hpower
        rw [hset, if_neg Bool.false_ne_true, ← hpower] at hchain
        obtain ⟨hsteps, hlast⟩ := ih hchain
        refine ⟨fun bit hbit => ?_, hlast⟩
        obtain hbit | rfl := Nat.lt_succ_iff_lt_or_eq.mp hbit
        · exact hsteps bit hbit
        · exact ⟨hsquare, fun htrue => absurd (hset.symm.trans htrue) Bool.false_ne_true⟩
      | true =>
        rw [hset, Bool.toNat_true] at hpower
        rw [hset, if_pos rfl] at hchain
        split at hchain
        · cases hchain
        · next hproduct =>
          rw [mul_pow_mod, ← hpower] at hchain
          obtain ⟨hsteps, hlast⟩ := ih hchain
          refine ⟨fun bit hbit => ?_, hlast⟩
          obtain hbit | rfl := Nat.lt_succ_iff_lt_or_eq.mp hbit
          · exact hsteps bit hbit
          · exact ⟨hsquare, fun _ => hproduct⟩

def byte_num (byte : UInt8) : Nat := (hash_to_num crypto.sha256 [byte]).value

theorem residue_byte (byte : UInt8) : residue crypto.sha256 ([byte] ::ₘ 0) = byte_num byte % PRIME := by
  rw [← residue_cons, residue_zero, Nat.one_mul]
  rfl

theorem residue_two_bytes (byte other : UInt8) :
    residue crypto.sha256 ([byte] ::ₘ [other] ::ₘ 0) = byte_num other * byte_num byte % PRIME := by
  rw [← residue_cons, residue_byte, Nat.mod_mul_mod]
  rfl

/-- Two bytes enter a set in either order, and a third one leaves it after them or in a set of its own. The
    number of the third has an inverse. -/
theorem muhash_either_order :
    (((((Build.new.insert [1]).insert [2]).remove [3]).run crypto.sha256).finalize crypto.sha256 =
      (((Build.new.remove [3]).combine ((Build.new.insert [2]).insert [1])).run crypto.sha256).finalize crypto.sha256) ∧
    (hash_to_num crypto.sha256 [3]).mul_mod (hash_to_num crypto.sha256 [3]).mod_inverse = .one := by
  have hrun : ((inverse_chain (byte_num 3) 3071 (byte_num 3)).map fun last => decide (byte_num 3 < PRIME ∧
      last * byte_num 3 % PRIME = 1 ∧ ¬ DropsCarry (byte_num 3 * last) ∧
      ¬ DropsCarry (byte_num 1 * byte_num 2 % PRIME * last) ∧
      ∀ product ∈ [byte_num 1, byte_num 2, byte_num 3, byte_num 2 * byte_num 1 % PRIME, byte_num 1 % PRIME * byte_num 2,
        byte_num 2 % PRIME * byte_num 1], ¬ DropsCarry product)) = some true := by
    decide +kernel
  obtain ⟨last, hchain, hfacts⟩ := Option.map_eq_some_iff.mp hrun
  obtain ⟨hlt, hunit, hlast, hquotient, hproducts⟩ := decide_eq_true_iff.mp hfacts
  simp only [List.forall_mem_cons, List.not_mem_nil, false_imp_iff, implies_true, and_true] at hproducts
  obtain ⟨hfirst, hsecond, hthird, hboth, hforth, hback⟩ := hproducts
  have hone : (PRIME - 2) / 2 ^ 3071 = 1 := by decide +kernel
  have hstart : byte_num 3 ^ ((PRIME - 2) / 2 ^ 3071) % PRIME = byte_num 3 := by
    rw [hone, pow_one, Nat.mod_eq_of_lt hlt]
  obtain ⟨hinverse, hpower⟩ := inverse_chain_eq_some ((congrArg _ hstart).trans hchain)
  have hfermat : Fermat PRIME (byte_num 3) := by
    have hexp : PRIME - 1 = PRIME - 2 + 1 := by have := two_le_PRIME; omega
    rw [Fermat, hexp, ← mul_pow_mod, hpower, hunit]
  have hremoved : residue crypto.sha256 ([3] ::ₘ 0) = byte_num 3 := (residue_byte 3).trans (Nat.mod_eq_of_lt hlt)
  have hnum : ∀ byte, (hash_to_num crypto.sha256 [byte]).value = byte_num byte := fun _ => rfl
  have hleft : (((Build.new.insert [1]).insert [2]).remove [3]).Exact crypto.sha256 := by
    simp only [Build.Exact, Build.inserted, Build.removed, hnum, residue_byte, residue_zero, Nat.one_mul]
    exact ⟨⟨⟨trivial, hfirst⟩, hforth⟩, hthird⟩
  have hright : ((Build.new.remove [3]).combine ((Build.new.insert [2]).insert [1])).Exact crypto.sha256 := by
    simp only [Build.Exact, Build.inserted, Build.removed, hnum, hremoved, residue_byte, residue_two_bytes, residue_zero, Nat.one_mul,
      Nat.mul_one]
    exact ⟨⟨trivial, hthird⟩, ⟨⟨trivial, hsecond⟩, hback⟩, hboth, hthird⟩
  have hdivides : (((Build.new.insert [1]).insert [2]).remove [3]).Divides crypto.sha256 := by
    constructor
    · simp only [Build.removed, hremoved]
      exact hinverse
    · simp only [Build.removed, Build.inserted, hremoved, residue_two_bytes, hpower]
      exact hquotient
    · simp only [Build.removed, hremoved]
      exact hfermat
  have hinserted : (0 : Multiset (List UInt8)) + ([1] ::ₘ [2] ::ₘ 0) = [2] ::ₘ [1] ::ₘ 0 := by
    rw [zero_add]
    exact Multiset.cons_swap _ _ _
  have hnet : ((Build.new.remove [3]).combine ((Build.new.insert [2]).insert [1])).inserted =
      (((Build.new.insert [1]).insert [2]).remove [3]).inserted := hinserted
  have hgone : ((Build.new.remove [3]).combine ((Build.new.insert [2]).insert [1])).removed =
      (((Build.new.insert [1]).insert [2]).remove [3]).removed := add_zero ([3] ::ₘ 0)
  have hdivides' : ((Build.new.remove [3]).combine ((Build.new.insert [2]).insert [1])).Divides crypto.sha256 := by
    obtain ⟨hinv, hprod, hfer⟩ := hdivides
    constructor
    · rwa [hgone]
    · rwa [hgone, hnet]
    · rwa [hgone]
  obtain ⟨_, hinvert, hsets, _⟩ := muhash_exact_without_dropped_carry (hash_to_num crypto.sha256 [3]) .one
    (((Build.new.insert [1]).insert [2]).remove [3])
    ((Build.new.remove [3]).combine ((Build.new.insert [2]).insert [1]))
  refine ⟨hsets hleft hright hdivides hdivides' ?_, hinvert hlt hfermat hinverse ?_⟩
  · intro data
    rw [Build.net, Build.net, hnet, hgone]
  · rw [hnum, hpower]
    exact hlast

/-- One less than the prime, and the prime less the difference. -/
def last_residue : Num3072 := ⟨(0xFFFFFFFF - PRIME_DIFF).toUInt32 :: List.replicate (LIMBS - 1) 0xFFFFFFFF, rfl⟩

def far_residue : Num3072 :=
  ⟨(0x100000000 - 2 * PRIME_DIFF).toUInt32 :: List.replicate (LIMBS - 1) 0xFFFFFFFF, rfl⟩

/-- Two numbers that are not zero have the product zero. -/
theorem mul_mod_drops_carry :
    last_residue.value = PRIME - 1 ∧ far_residue.value = PRIME - PRIME_DIFF.toNat ∧
      (last_residue.mul_mod far_residue).value = 0 ∧
      last_residue.value * far_residue.value % PRIME = PRIME_DIFF.toNat := by
  refine ⟨by decide +kernel, by decide +kernel, ?_, by decide +kernel⟩
  rw [Num3072.mul_mod_value]
  decide +kernel

end qubitcoin.muhash
