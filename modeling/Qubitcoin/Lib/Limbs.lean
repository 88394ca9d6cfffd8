import Mathlib.Data.Nat.Digits.Lemmas
import Mathlib.Tactic

/-! Numbers as lists of limbs of 32 bits, the lowest first, and the loops that add and
    multiply them with carries of 64 bits. -/

namespace limbs

def value (limbs : List UInt32) : Nat := Nat.ofDigits (2 ^ 32) (limbs.map UInt32.toNat)

/-- The number that words of 64 bits stand for, each with a limb in it. -/
def wide_value (wide : List UInt64) : Nat := Nat.ofDigits (2 ^ 32) (wide.map UInt64.toNat)

/-- Each word is a limb. -/
def Small (wide : List UInt64) : Prop := ∀ word ∈ wide, word.toNat < 2 ^ 32

/-- Add a carry to a number, limb by limb; the second result is the carry out. -/
def add_carry : UInt64 → List UInt32 → List UInt32 × UInt64
  | carry, [] => ([], carry)
  | carry, limb :: rest =>
    let sum := carry + limb.toUInt64
    let (rest, carry) := add_carry (sum >>> 32) rest
    (sum.toUInt32 :: rest, carry)

/-- Add the product of a limb and a number; the word after the product takes the carry. -/
def mul_row (a : UInt32) : UInt64 → List UInt32 → List UInt64 → List UInt64
  | carry, b :: bs, word :: rest =>
    let prod := a.toUInt64 * b.toUInt64 + word + carry
    (prod &&& 0xFFFFFFFF) :: mul_row a (prod >>> 32) bs rest
  | carry, [], word :: rest => (word + carry) :: rest
  | _, _, [] => []

/-- Add the product of two numbers, one row for each limb of the first. -/
def mul_rows (bs : List UInt32) : List UInt32 → List UInt64 → List UInt64
  | [], wide => wide
  | a :: rest, wide =>
    match mul_row a 0 bs wide with
    | [] => []
    | low :: high => low :: mul_rows bs rest high

/-- Add a multiple of the high words to the low ones; the second result is the carry out. -/
def add_mul (factor : UInt64) : UInt64 → List UInt64 → List UInt64 → List UInt64 × UInt64
  | carry, high :: highs, low :: lows =>
    let add := high * factor + low + carry
    let (rest, carry) := add_mul factor (add >>> 32) highs lows
    ((add &&& 0xFFFFFFFF) :: rest, carry)
  | carry, _, _ => ([], carry)

def bit (limbs : List UInt32) (n : Nat) : Bool := ((limbs.getD (n / 32) 0 >>> UInt32.ofNat (n % 32)) &&& 1) == 1

theorem length_add_carry {limbs : List UInt32} : ∀ {carry : UInt64}, (add_carry carry limbs).1.length = limbs.length := by
  induction limbs with
  | nil => exact fun {carry} => rfl
  | cons limb rest ih => exact fun {carry} => congrArg (· + 1) ih

theorem length_mul_row {a : UInt32} {bs : List UInt32} : ∀ {carry : UInt64} {wide : List UInt64},
    (mul_row a carry bs wide).length = wide.length := by
  induction bs with
  | nil =>
    intro carry wide
    cases wide <;> rfl
  | cons b bs ih =>
    intro carry wide
    cases wide with
    | nil => rfl
    | cons word rest => exact congrArg (· + 1) ih

theorem length_mul_rows {bs as : List UInt32} : ∀ {wide : List UInt64}, (mul_rows bs as wide).length = wide.length := by
  induction as with
  | nil => exact fun {wide} => rfl
  | cons a rest ih =>
    intro wide
    unfold mul_rows
    rw [← @length_mul_row a bs 0 wide]
    cases mul_row a 0 bs wide with
    | nil => rfl
    | cons low high => exact congrArg (· + 1) ih

theorem length_add_mul {factor : UInt64} {highs : List UInt64} : ∀ {carry : UInt64} {lows : List UInt64},
    highs.length = lows.length → (add_mul factor carry highs lows).1.length = lows.length := by
  induction highs with
  | nil =>
    intro carry lows hlength
    rw [List.eq_nil_of_length_eq_zero hlength.symm]
    rfl
  | cons high highs ih =>
    intro carry lows hlength
    cases lows with
    | nil => cases hlength
    | cons low lows => exact congrArg (· + 1) (ih (Nat.succ.inj hlength))

@[simp] theorem value_nil : value [] = 0 := rfl

@[simp] theorem value_cons (limb : UInt32) (rest : List UInt32) :
    value (limb :: rest) = limb.toNat + 2 ^ 32 * value rest := rfl

@[simp] theorem wide_value_nil : wide_value [] = 0 := rfl

@[simp] theorem wide_value_cons (word : UInt64) (rest : List UInt64) :
    wide_value (word :: rest) = word.toNat + 2 ^ 32 * wide_value rest := rfl

theorem wide_value_append (low high : List UInt64) :
    wide_value (low ++ high) = wide_value low + 2 ^ (32 * low.length) * wide_value high := by
  unfold wide_value
  rw [List.map_append, Nat.ofDigits_append, List.length_map, pow_mul]

theorem digit_lt {limbs : List UInt32} : ∀ digit ∈ limbs.map UInt32.toNat, digit < 2 ^ 32 := by
  intro digit hdigit
  obtain ⟨limb, _, rfl⟩ := List.mem_map.mp hdigit
  exact limb.toNat_lt

theorem value_lt (limbs : List UInt32) : value limbs < 2 ^ (32 * limbs.length) := by
  have hlt := Nat.ofDigits_lt_base_pow_length (by decide) (@digit_lt limbs)
  rwa [List.length_map, ← pow_mul] at hlt

theorem Small.wide_value_lt {wide : List UInt64} (hsmall : Small wide) : wide_value wide < 2 ^ (32 * wide.length) := by
  have hdigits : ∀ digit ∈ wide.map UInt64.toNat, digit < 2 ^ 32 := by
    intro digit hdigit
    obtain ⟨word, hword, rfl⟩ := List.mem_map.mp hdigit
    exact hsmall word hword
  have hlt := Nat.ofDigits_lt_base_pow_length (by decide) hdigits
  rwa [List.length_map, ← pow_mul] at hlt

/-- Numbers of the same length are equal when their limbs are. -/
theorem value_injective {left right : List UInt32} (hlength : left.length = right.length)
    (hvalue : value left = value right) : left = right := by
  have hmap : left.map UInt32.toNat = right.map UInt32.toNat :=
    Nat.ofDigits_inj_of_len_eq (by decide) (by rw [List.length_map, List.length_map, hlength]) digit_lt digit_lt hvalue
  exact List.map_injective_iff.mpr (fun _ _ => UInt32.toNat_inj.mp) hmap

theorem value_append (low high : List UInt32) :
    value (low ++ high) = value low + 2 ^ (32 * low.length) * value high := by
  unfold value
  rw [List.map_append, Nat.ofDigits_append, List.length_map, pow_mul]

theorem value_replicate_zero (n : Nat) : value (List.replicate n 0) = 0 := by
  induction n with
  | zero => rfl
  | succ n ih =>
    rw [List.replicate_succ, value_cons, ih]
    rfl

/-- A number is the largest of its length when all its limbs are. -/
theorem value_add_one_eq {limbs : List UInt32} :
    value limbs + 1 = 2 ^ (32 * limbs.length) ↔ ∀ limb ∈ limbs, limb = 0xFFFFFFFF := by
  induction limbs with
  | nil => exact ⟨fun _ => nofun, fun _ => rfl⟩
  | cons limb rest ih =>
    have hlt := value_lt rest
    have hlimb := limb.toNat_lt
    have hpow : 2 ^ (32 * (limb :: rest).length) = 2 ^ 32 * 2 ^ (32 * rest.length) := by
      rw [← pow_add, List.length_cons, Nat.mul_succ, Nat.add_comm]
    have hmax : limb = 0xFFFFFFFF ↔ limb.toNat = 2 ^ 32 - 1 := UInt32.toNat_inj.symm
    rw [List.forall_mem_cons, ← ih, hpow, value_cons, hmax]
    omega

theorem bit_limb (limb : UInt32) {n : Nat} (hn : n < 32) :
    (((limb >>> UInt32.ofNat n) &&& 1) == 1) = limb.toNat.testBit n := by
  have hshift : (limb >>> UInt32.ofNat n).toNat = limb.toNat >>> n := by
    rw [UInt32.toNat_shiftRight, UInt32.toNat_ofNat', Nat.mod_mod_of_dvd n (by decide), Nat.mod_eq_of_lt hn]
  rw [Nat.testBit, Nat.and_comm, ← hshift, Bool.eq_iff_iff, beq_iff_eq, bne_iff_ne, ← UInt32.toNat_inj, UInt32.toNat_and]
  have hone : (1 : UInt32).toNat = 1 := rfl
  rw [hone, Nat.and_one_is_mod]
  omega

/-- The bits of the limbs are those of the number. -/
theorem bit_eq_testBit {limbs : List UInt32} : ∀ {n : Nat}, bit limbs n = (value limbs).testBit n := by
  induction limbs with
  | nil =>
    intro n
    rw [value_nil, Nat.zero_testBit]
    unfold bit
    rw [List.getD_nil]
    rw [UInt32.zero_shiftRight]
    rfl
  | cons limb rest ih =>
    intro n
    rw [value_cons, Nat.add_comm, Nat.testBit_two_pow_mul_add _ limb.toNat_lt]
    split
    · next hn =>
      unfold bit
      rw [Nat.div_eq_of_lt hn, Nat.mod_eq_of_lt hn]
      exact bit_limb limb hn
    · next hn =>
      have hdiv : n / 32 = (n - 32) / 32 + 1 := by omega
      have hmod : n % 32 = (n - 32) % 32 := by omega
      rw [← ih]
      unfold bit
      rw [hdiv, hmod, List.getD_cons_succ]

theorem toNat_low (word : UInt64) : (word &&& 0xFFFFFFFF).toNat = word.toNat % 2 ^ 32 := by
  rw [UInt64.toNat_and]
  exact Nat.and_two_pow_sub_one_eq_mod word.toNat 32

theorem toNat_high (word : UInt64) : (word >>> 32).toNat = word.toNat / 2 ^ 32 := by
  rw [UInt64.toNat_shiftRight]
  exact Nat.shiftRight_eq_div_pow word.toNat 32

theorem toNat_limb (word : UInt64) : word.toUInt32.toNat = word.toNat % 2 ^ 32 := UInt64.toNat_toUInt32 word

theorem toNat_add_eq {a b : UInt64} (hfits : a.toNat + b.toNat < 2 ^ 64) : (a + b).toNat = a.toNat + b.toNat := by
  rw [UInt64.toNat_add, Nat.mod_eq_of_lt hfits]

theorem toNat_mul_eq {a b : UInt64} (hfits : a.toNat * b.toNat < 2 ^ 64) : (a * b).toNat = a.toNat * b.toNat := by
  rw [UInt64.toNat_mul, Nat.mod_eq_of_lt hfits]

/-- A product of limbs leaves room for two more limbs in a word. -/
theorem mul_add_add_lt {a b c d : Nat} (ha : a < 2 ^ 32) (hb : b < 2 ^ 32) (hc : c < 2 ^ 32) (hd : d < 2 ^ 32) :
    a * b + c + d < 2 ^ 64 := by
  have hmul : a * b ≤ (2 ^ 32 - 1) * (2 ^ 32 - 1) := Nat.mul_le_mul (by omega) (by omega)
  omega

/-- The low limbs of words that are limbs. -/
theorem Small.value_map {wide : List UInt64} (hsmall : Small wide) :
    value (wide.map UInt64.toUInt32) = wide_value wide := by
  unfold value wide_value
  rw [List.map_map]
  refine congrArg (Nat.ofDigits (2 ^ 32)) (List.map_congr_left fun word hword => ?_)
  exact (toNat_limb word).trans (Nat.mod_eq_of_lt (hsmall word hword))

theorem value_add_carry {limbs : List UInt32} : ∀ {carry : UInt64}, carry.toNat + 2 ^ 32 ≤ 2 ^ 64 →
    value (add_carry carry limbs).1 + 2 ^ (32 * limbs.length) * (add_carry carry limbs).2.toNat =
      carry.toNat + value limbs := by
  induction limbs with
  | nil =>
    intro carry _
    show 0 + 2 ^ 0 * carry.toNat = carry.toNat + 0
    omega
  | cons limb rest ih =>
    intro carry hcarry
    have hlimb := limb.toNat_lt
    have hsum : (carry + limb.toUInt64).toNat = carry.toNat + limb.toNat :=
      toNat_add_eq (by rw [UInt32.toNat_toUInt64]; omega)
    have hhigh := toNat_high (carry + limb.toUInt64)
    have hrest := @ih ((carry + limb.toUInt64) >>> 32) (by omega)
    have hpow : 2 ^ (32 * (limb :: rest).length) = 2 ^ 32 * 2 ^ (32 * rest.length) := by
      rw [← pow_add, List.length_cons, Nat.mul_succ, Nat.add_comm]
    unfold add_carry
    dsimp only
    rw [value_cons, value_cons, toNat_limb, hpow, Nat.mul_assoc]
    generalize value (add_carry ((carry + limb.toUInt64) >>> 32) rest).1 = out at hrest ⊢
    generalize 2 ^ (32 * rest.length) * (add_carry ((carry + limb.toUInt64) >>> 32) rest).2.toNat = excess at hrest ⊢
    omega

/-- A row: the accumulated words in its place, a free word after them, and the rest. -/
theorem mul_row_spec {a : UInt32} {bs : List UInt32} : ∀ {carry : UInt64} {acc rest : List UInt64},
    carry.toNat < 2 ^ 32 → acc.length = bs.length → Small acc →
      ∃ out, mul_row a carry bs (acc ++ 0 :: rest) = out ++ rest ∧ out.length = bs.length + 1 ∧ Small out ∧
        wide_value out = wide_value acc + a.toNat * value bs + carry.toNat := by
  induction bs with
  | nil =>
    intro carry acc rest hcarry hlength _
    rw [List.eq_nil_of_length_eq_zero hlength]
    refine ⟨[carry], ?_, rfl, ?_, ?_⟩
    · show (0 + carry) :: rest = carry :: rest
      rw [UInt64.zero_add]
    · intro word hword
      rw [List.mem_singleton.mp hword]
      exact hcarry
    · show carry.toNat + 2 ^ 32 * 0 = 0 + a.toNat * 0 + carry.toNat
      omega
  | cons b bs ih =>
    intro carry acc rest hcarry hlength hsmall
    cases acc with
    | nil => cases hlength
    | cons word acc =>
      obtain ⟨hword, hacc⟩ := List.forall_mem_cons.mp hsmall
      have hroom := mul_add_add_lt a.toNat_lt b.toNat_lt hword hcarry
      have hprod : (a.toUInt64 * b.toUInt64 + word + carry).toNat = a.toNat * b.toNat + word.toNat + carry.toNat := by
        have hmul : (a.toUInt64 * b.toUInt64).toNat = a.toNat * b.toNat := by
          rw [toNat_mul_eq] <;> rw [UInt32.toNat_toUInt64, UInt32.toNat_toUInt64]
          omega
        have hadd : (a.toUInt64 * b.toUInt64 + word).toNat = a.toNat * b.toNat + word.toNat := by
          rw [toNat_add_eq] <;> rw [hmul]
          omega
        rw [toNat_add_eq] <;> rw [hadd]
        exact hroom
      have hlow := toNat_low (a.toUInt64 * b.toUInt64 + word + carry)
      have hhigh := toNat_high (a.toUInt64 * b.toUInt64 + word + carry)
      obtain ⟨out, heq, hout, hsmall', hvalue⟩ := @ih ((a.toUInt64 * b.toUInt64 + word + carry) >>> 32) acc rest
        (by omega) (Nat.succ.inj hlength) hacc
      refine ⟨_ :: out, congrArg (_ :: ·) heq, congrArg (· + 1) hout, List.forall_mem_cons.mpr ⟨by omega, hsmall'⟩, ?_⟩
      rw [wide_value_cons, wide_value_cons, value_cons, hvalue, hlow, hhigh, hprod, Nat.mul_add a.toNat,
        Nat.mul_left_comm a.toNat]
      omega

/-- The rows add up to the product. -/
theorem mul_rows_spec {bs as : List UInt32} : ∀ {acc : List UInt64}, acc.length = bs.length → Small acc →
    Small (mul_rows bs as (acc ++ List.replicate as.length 0)) ∧
      wide_value (mul_rows bs as (acc ++ List.replicate as.length 0)) = wide_value acc + value as * value bs := by
  induction as with
  | nil =>
    intro acc _ hsmall
    unfold mul_rows
    rw [List.length_nil, List.replicate_zero, List.append_nil, value_nil, Nat.zero_mul]
    exact ⟨hsmall, rfl⟩
  | cons a as ih =>
    intro acc hlength hsmall
    obtain ⟨out, heq, hout, hsmall', hvalue⟩ :=
      @mul_row_spec a bs 0 acc (List.replicate as.length 0) (by decide) hlength hsmall
    cases out with
    | nil => cases hout
    | cons low high =>
      obtain ⟨hlow, hhigh⟩ := List.forall_mem_cons.mp hsmall'
      obtain ⟨hrows, hproduct⟩ := ih (Nat.succ.inj hout) hhigh
      unfold mul_rows
      rw [List.length_cons, List.replicate_succ, heq]
      refine ⟨List.forall_mem_cons.mpr ⟨hlow, hrows⟩, ?_⟩
      rw [wide_value_cons] at hvalue
      show wide_value (low :: mul_rows bs as (high ++ List.replicate as.length 0)) = _
      rw [wide_value_cons, hproduct, value_cons, Nat.add_mul, Nat.mul_add, ← Nat.add_assoc, hvalue, Nat.mul_assoc]
      show _ + 0 + _ = _
      omega

/-- The high words times a factor, added to the low ones. -/
theorem add_mul_spec {factor : UInt64} (hfactor : factor.toNat < 2 ^ 32) {highs : List UInt64} :
    ∀ {carry : UInt64} {lows : List UInt64}, carry.toNat < 2 ^ 32 → highs.length = lows.length → Small highs → Small lows →
      Small (add_mul factor carry highs lows).1 ∧ (add_mul factor carry highs lows).2.toNat < 2 ^ 32 ∧
        wide_value (add_mul factor carry highs lows).1 +
            2 ^ (32 * lows.length) * (add_mul factor carry highs lows).2.toNat =
          wide_value highs * factor.toNat + wide_value lows + carry.toNat := by
  induction highs with
  | nil =>
    intro carry lows hcarry hlength _ _
    rw [List.eq_nil_of_length_eq_zero hlength.symm]
    refine ⟨nofun, hcarry, ?_⟩
    show 0 + 2 ^ 0 * carry.toNat = 0 * factor.toNat + 0 + carry.toNat
    omega
  | cons high highs ih =>
    intro carry lows hcarry hlength hhighs hlows
    cases lows with
    | nil => cases hlength
    | cons low lows =>
      obtain ⟨hhigh, hhighs⟩ := List.forall_mem_cons.mp hhighs
      obtain ⟨hlow, hlows⟩ := List.forall_mem_cons.mp hlows
      have hroom := mul_add_add_lt hhigh hfactor hlow hcarry
      have hadd : (high * factor + low + carry).toNat = high.toNat * factor.toNat + low.toNat + carry.toNat := by
        have hmul : (high * factor).toNat = high.toNat * factor.toNat := toNat_mul_eq (by omega)
        have hsum : (high * factor + low).toNat = high.toNat * factor.toNat + low.toNat := by
          rw [toNat_add_eq] <;> rw [hmul]
          omega
        rw [toNat_add_eq] <;> rw [hsum]
        exact hroom
      have hword := toNat_low (high * factor + low + carry)
      have hnext := toNat_high (high * factor + low + carry)
      obtain ⟨hsmall, hout, hvalue⟩ := @ih ((high * factor + low + carry) >>> 32) lows (by omega)
        (Nat.succ.inj hlength) hhighs hlows
      have hpow : 2 ^ (32 * (low :: lows).length) = 2 ^ 32 * 2 ^ (32 * lows.length) := by
        rw [← pow_add, List.length_cons, Nat.mul_succ, Nat.add_comm]
      unfold add_mul
      dsimp only
      refine ⟨List.forall_mem_cons.mpr ⟨by omega, hsmall⟩, hout, ?_⟩
      rw [wide_value_cons, wide_value_cons, wide_value_cons, hpow, Nat.mul_assoc, Nat.add_mul, Nat.mul_assoc]
      generalize wide_value (add_mul factor ((high * factor + low + carry) >>> 32) highs lows).1 = out at hvalue ⊢
      generalize 2 ^ (32 * lows.length) * (add_mul factor ((high * factor + low + carry) >>> 32) highs lows).2.toNat =
        excess at hvalue ⊢
      generalize wide_value highs * factor.toNat = product at hvalue ⊢
      omega

/-- Cut off at its length, a sum is what is left of it, and the carry is the rest. -/
theorem add_carry_eq {carry : UInt64} (limbs : List UInt32) (hcarry : carry.toNat + 2 ^ 32 ≤ 2 ^ 64) :
    value (add_carry carry limbs).1 = (carry.toNat + value limbs) % 2 ^ (32 * limbs.length) := by
  have hlt := value_lt (add_carry carry limbs).1
  rw [length_add_carry] at hlt
  rw [← value_add_carry hcarry, Nat.add_mul_mod_self_left, Nat.mod_eq_of_lt hlt]

/-- The same of a sum with a multiple. -/
theorem add_mul_eq {factor : UInt64} (hfactor : factor.toNat < 2 ^ 32) {highs lows : List UInt64}
    (hlength : highs.length = lows.length) (hhighs : Small highs) (hlows : Small lows) :
    Small (add_mul factor 0 highs lows).1 ∧
      wide_value (add_mul factor 0 highs lows).1 =
        (wide_value highs * factor.toNat + wide_value lows) % 2 ^ (32 * lows.length) ∧
      (add_mul factor 0 highs lows).2.toNat =
        (wide_value highs * factor.toNat + wide_value lows) / 2 ^ (32 * lows.length) ∧
      (add_mul factor 0 highs lows).2.toNat < 2 ^ 32 := by
  obtain ⟨hsmall, hcarry, hvalue⟩ := @add_mul_spec factor hfactor highs 0 lows (by decide) hlength hhighs hlows
  have hlt := hsmall.wide_value_lt
  rw [length_add_mul hlength] at hlt
  have hzero : (0 : UInt64).toNat = 0 := rfl
  rw [hzero, Nat.add_zero] at hvalue
  refine ⟨hsmall, ?_, ?_, hcarry⟩
  · rw [← hvalue, Nat.add_mul_mod_self_left, Nat.mod_eq_of_lt hlt]
  · rw [← hvalue, Nat.add_mul_div_left _ _ (Nat.two_pow_pos _), Nat.div_eq_of_lt hlt, Nat.zero_add]

end limbs
