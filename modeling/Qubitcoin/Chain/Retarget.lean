import Qubitcoin.Chain.Compact
import Qubitcoin.Chain.Index

/-! `qubitcoin-common/pow.rs`: the transitions of the difficulty that are permitted, and that
    a retarget is one of them. -/

open qubitcoin primitives params

namespace qubitcoin.params

def ConsensusParams.mainnet : ConsensusParams where
  genesis_hash := 0x000000000019d6689c085ae165831e934ff763ae46a2a6c172b3f1b60a8ce26f
  bip34_height := 227931
  bip65_height := 388381
  bip66_height := 363725
  csv_height := 419328
  segwit_height := 481824
  script_flag_exceptions := [
    (0x00000000000002dc756eebf4f49723ed8d30cc28a5f108eb94b1ba88ac4f9c22, 0),
    (0x0000000000000000000f14c35b2d841e986ab5441de8c585d5ffe55ea1e395ad, 0x801)]
  pow_limit := 0x00000000ffffffffffffffffffffffffffffffffffffffffffffffffffffffff
  pow_target_timespan := 14 * 24 * 60 * 60
  pow_target_spacing := 10 * 60
  pow_allow_min_difficulty_blocks := false
  pow_no_retargeting := false
  enforce_bip94 := false
  signet_blocks := false
  signet_challenge := []
  subsidy_halving_interval := 210000

end qubitcoin.params

namespace qubitcoin.pow

/-- A target after a period that took `timespan`, at most the limit. -/
def scaled_target (base : ArithUint256) (timespan : Int) (params : ConsensusParams) : ArithUint256 :=
  let pow_limit := uint256_to_arith params.pow_limit
  let target := base * BitVec.ofInt 256 timespan / BitVec.ofInt 256 params.pow_target_timespan
  if pow_limit < target then pow_limit else target

/-- Whether a block at `height` may claim `new_nbits` after a block that claimed
    `old_nbits`. -/
def permitted_difficulty_transition (params : ConsensusParams) (height : Int) (old_nbits new_nbits : UInt32) : Bool :=
  if params.pow_allow_min_difficulty_blocks then true
  else if height.tmod params.difficulty_adjustment_interval = 0 then
    let smallest_timespan := params.pow_target_timespan.tdiv 4
    let largest_timespan := params.pow_target_timespan * 4
    let observed_new_target := (ArithUint256.set_compact new_nbits).1
    let old_target := (ArithUint256.set_compact old_nbits).1
    let largest_difficulty_target := scaled_target old_target largest_timespan params
    let maximum_new_target := (ArithUint256.set_compact (largest_difficulty_target.get_compact false)).1
    if maximum_new_target < observed_new_target then false
    else
      let smallest_difficulty_target := scaled_target old_target smallest_timespan params
      let minimum_new_target := (ArithUint256.set_compact (smallest_difficulty_target.get_compact false)).1
      !decide (observed_new_target < minimum_new_target)
  else old_nbits == new_nbits

/-- The time that a period counts for: what it took, within a factor of four of what it
    should take. -/
def clamped_timespan (first_block_time last_block_time : Int) (params : ConsensusParams) : Int :=
  min (max (last_block_time - first_block_time) (params.pow_target_timespan.tdiv 4)) (params.pow_target_timespan * 4)

theorem calculate_next_work_required_eq {params : ConsensusParams} (current_bits first_bits : UInt32)
    (first_block_time last_block_time : Int) (hretarget : params.pow_no_retargeting = false) :
    calculate_next_work_required current_bits first_bits first_block_time last_block_time params =
      (scaled_target (ArithUint256.set_compact (if params.enforce_bip94 then first_bits else current_bits)).1
        (clamped_timespan first_block_time last_block_time params) params).get_compact false := by
  rw [calculate_next_work_required, hretarget]
  rfl

theorem clamped_timespan_bounds (first_block_time last_block_time : Int) {params : ConsensusParams}
    (hspan : 0 < params.pow_target_timespan) :
    0 ≤ params.pow_target_timespan.tdiv 4 ∧
      params.pow_target_timespan.tdiv 4 ≤ clamped_timespan first_block_time last_block_time params ∧
      clamped_timespan first_block_time last_block_time params ≤ params.pow_target_timespan * 4 := by
  have hdiv : params.pow_target_timespan.tdiv 4 = params.pow_target_timespan / 4 :=
    Int.tdiv_eq_ediv_of_nonneg hspan.le
  unfold clamped_timespan
  omega

theorem toNat_ofInt {n : Int} (hnonneg : 0 ≤ n) (hlt : n < 2 ^ 256) : (BitVec.ofInt 256 n).toNat = n.toNat := by
  rw [BitVec.toNat_ofInt]
  have hmod : n % (2 ^ 256 : Nat) = n := Int.emod_eq_of_lt hnonneg (by exact_mod_cast hlt)
  rw [hmod]

theorem toNat_capped (limit target : ArithUint256) :
    (if limit < target then limit else target).toNat = min target.toNat limit.toNat := by
  by_cases h : limit < target
  · rw [if_pos h]
    have := BitVec.lt_def.mp h
    omega
  · rw [if_neg h]
    have := BitVec.le_def.mp (BitVec.not_lt.mp h)
    omega

theorem scaled_target_le (base : ArithUint256) (timespan : Int) (params : ConsensusParams) :
    (scaled_target base timespan params).toNat ≤ params.pow_limit.toNat := by
  rw [scaled_target, toNat_capped]
  exact min_le_right _ _

/-- The arithmetic of a retarget stays in range: the longest timespan in 64 bits, the
    product in 256 bits, and the divisor is not zero. -/
structure InRange (base : ArithUint256) (timespan : Int) (params : ConsensusParams) : Prop where
  longest : params.pow_target_timespan * 4 < 2 ^ 63
  divisor : 0 < params.pow_target_timespan
  product : base.toNat * timespan.toNat < 2 ^ 256

theorem toNat_scaled_target {base : ArithUint256} {timespan : Int} {params : ConsensusParams}
    (hrange : InRange base timespan params) (hnonneg : 0 ≤ timespan)
    (hle : timespan ≤ params.pow_target_timespan * 4) :
    (scaled_target base timespan params).toNat =
      min (base.toNat * timespan.toNat / params.pow_target_timespan.toNat) params.pow_limit.toNat := by
  obtain ⟨hlongest, hdivisor, hproduct⟩ := hrange
  have htarget : (base * BitVec.ofInt 256 timespan / BitVec.ofInt 256 params.pow_target_timespan).toNat =
      base.toNat * timespan.toNat / params.pow_target_timespan.toNat := by
    rw [BitVec.toNat_udiv, BitVec.toNat_mul, toNat_ofInt hnonneg (by omega), toNat_ofInt hdivisor.le (by omega),
      Nat.mod_eq_of_lt hproduct]
  rw [scaled_target, toNat_capped, htarget]
  rfl

theorem scaled_target_mono {base : ArithUint256} {shorter longer : Int} {params : ConsensusParams}
    (hrange : InRange base longer params) (hnonneg : 0 ≤ shorter) (hle : shorter ≤ longer)
    (hlonger : longer ≤ params.pow_target_timespan * 4) :
    (scaled_target base shorter params).toNat ≤ (scaled_target base longer params).toNat := by
  have hproduct : base.toNat * shorter.toNat ≤ base.toNat * longer.toNat :=
    Nat.mul_le_mul_left _ (Int.toNat_le_toNat hle)
  have hshorter : InRange base shorter params := ⟨hrange.longest, hrange.divisor, hproduct.trans_lt hrange.product⟩
  rw [toNat_scaled_target hrange (by omega) hlonger, toNat_scaled_target hshorter hnonneg (by omega)]
  exact min_le_min_right _ (Nat.div_le_div_right hproduct)

/-- A retarget from a target within the limit stays in range, claims a target within the
    limit and is a permitted transition. The times are any numbers: a difference that wraps
    is the difference of two other times. -/
theorem retarget_permitted (params : ConsensusParams) (current_bits first_bits : UInt32)
    (first_block_time last_block_time height : Int)
    (hmin_difficulty : params.pow_allow_min_difficulty_blocks = false)
    (hretarget : params.pow_no_retargeting = false)
    (hbase : params.enforce_bip94 = true → first_bits = current_bits)
    (hspan : 0 < params.pow_target_timespan) (hlongest : params.pow_target_timespan * 4 < 2 ^ 63)
    (hlimit : params.pow_limit.toNat * (4 * params.pow_target_timespan) < 2 ^ 256)
    (htarget : (ArithUint256.set_compact current_bits).1 ≤ uint256_to_arith params.pow_limit)
    (hheight : height.tmod params.difficulty_adjustment_interval = 0) :
    let next := calculate_next_work_required current_bits first_bits first_block_time last_block_time params
    InRange (ArithUint256.set_compact current_bits).1
        (clamped_timespan first_block_time last_block_time params) params ∧
      (ArithUint256.set_compact next).1 ≤ uint256_to_arith params.pow_limit ∧
      (ArithUint256.set_compact next).2 = (false, false) ∧
      permitted_difficulty_transition params height current_bits next = true := by
  intro next
  obtain ⟨hsmallest, hshort, hlong⟩ := clamped_timespan_bounds first_block_time last_block_time hspan
  have hchosen : (if params.enforce_bip94 then first_bits else current_bits) = current_bits := by
    split
    · next h => exact hbase h
    · rfl
  have hnext : next = (scaled_target (ArithUint256.set_compact current_bits).1
      (clamped_timespan first_block_time last_block_time params) params).get_compact false := by
    have heq := calculate_next_work_required_eq current_bits first_bits first_block_time last_block_time hretarget
    rwa [hchosen] at heq
  generalize clamped_timespan first_block_time last_block_time params = actual at hnext hshort hlong ⊢
  generalize hold : (ArithUint256.set_compact current_bits).1 = base at hnext htarget ⊢
  have hwidest : InRange base (params.pow_target_timespan * 4) params := by
    refine ⟨hlongest, hspan, ?_⟩
    have hnat : (params.pow_target_timespan * 4).toNat = 4 * params.pow_target_timespan.toNat := by omega
    have hcast : params.pow_limit.toNat * (4 * params.pow_target_timespan.toNat) < 2 ^ 256 := by
      have hspan_cast : (params.pow_target_timespan.toNat : Int) = params.pow_target_timespan :=
        Int.toNat_of_nonneg hspan.le
      have : ((params.pow_limit.toNat * (4 * params.pow_target_timespan.toNat) : Nat) : Int) < 2 ^ 256 := by
        push_cast
        rw [hspan_cast]
        exact hlimit
      exact_mod_cast this
    rw [hnat]
    exact (Nat.mul_le_mul_right _ (BitVec.le_def.mp htarget)).trans_lt hcast
  have hactual : InRange base actual params := by
    refine ⟨hlongest, hspan, ?_⟩
    exact (Nat.mul_le_mul_left _ (Int.toNat_le_toNat hlong)).trans_lt hwidest.product
  have hlow := ArithUint256.rounded_mono (scaled_target_mono hactual hsmallest hshort hlong)
  have hhigh := ArithUint256.rounded_mono (scaled_target_mono hwidest (hsmallest.trans hshort) hlong le_rfl)
  refine ⟨hactual, ?_, ?_, ?_⟩
  · rw [hnext, BitVec.le_def, ArithUint256.toNat_decoded]
    exact (ArithUint256.rounded_le _).trans (scaled_target_le base actual params)
  · rw [hnext, ArithUint256.set_compact_get_compact]
  · rw [permitted_difficulty_transition, if_neg (by simp [hmin_difficulty]), if_pos hheight, hnext]
    simp only [hold, BitVec.lt_def, ArithUint256.toNat_decoded]
    rw [if_neg (by omega), Bool.not_eq_true', decide_eq_false_iff_not]
    omega

/-- The first retarget of the main network, after a period of half its time. -/
theorem retarget_permitted_mainnet :
    permitted_difficulty_transition .mainnet 2016 0x1d00ffff
      (calculate_next_work_required 0x1d00ffff 0x1d00ffff 1231006505 1231611305 .mainnet) = true :=
  (retarget_permitted .mainnet 0x1d00ffff 0x1d00ffff 1231006505 1231611305 2016 rfl rfl (fun _ => rfl) (by decide)
    (by decide) (by decide +kernel) (by decide +kernel) (by decide)).2.2.2

/-- Where the base of the retarget is the first block of the period, a first block with a
    smaller target than the last one leads to a transition that is not permitted. -/
theorem retarget_permitted_fails :
    let params : ConsensusParams := { ConsensusParams.mainnet with enforce_bip94 := true }
    params.pow_allow_min_difficulty_blocks = false ∧ params.pow_no_retargeting = false ∧
      params.pow_limit.toNat * (4 * params.pow_target_timespan) < 2 ^ 256 ∧
      0 < (ArithUint256.set_compact 0x1d00ffff).1 ∧
      (ArithUint256.set_compact 0x1d00ffff).1 ≤ uint256_to_arith params.pow_limit ∧
      (2016 : Int).tmod params.difficulty_adjustment_interval = 0 ∧
      permitted_difficulty_transition params 2016 0x1d00ffff
        (calculate_next_work_required 0x1d00ffff 0x1b00ffff 1231006505 1232216105 params) = false := by
  decide +kernel

end qubitcoin.pow
