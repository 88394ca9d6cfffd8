import Qubitcoin.Lib.Limbs
import Mathlib.Data.List.GetD
import Mathlib.Data.Nat.Size

/-! Arithmetic on numbers of a fixed number of limbs: sums, products and shifts cut off at the
    width, and division by shifting and subtracting. -/

namespace limbs

/-- Add two numbers, limb by limb. -/
def add : UInt64 → List UInt32 → List UInt32 → List UInt32
  | carry, a :: as, b :: bs =>
    let n := carry + a.toUInt64 + b.toUInt64
    (n &&& 0xFFFFFFFF).toUInt32 :: add (n >>> 32) as bs
  | _, _, _ => []

/-- Add the product of a limb and a number, as far as there is room. -/
def row (x : UInt32) : UInt64 → List UInt32 → List UInt32 → List UInt32
  | carry, a :: acc, b :: bs =>
    let n := carry + a.toUInt64 + x.toUInt64 * b.toUInt64
    (n &&& 0xFFFFFFFF).toUInt32 :: row x (n >>> 32) acc bs
  | _, acc, _ => acc

/-- Add a product, one row for each limb of the first factor. -/
def rows (bs : List UInt32) : List UInt32 → List UInt32 → List UInt32
  | x :: xs, acc =>
    match row x 0 acc bs with
    | [] => []
    | low :: high => low :: rows bs xs high
  | [], acc => acc

/-- Add one. -/
def inc : List UInt32 → List UInt32
  | [] => []
  | a :: as => if a + 1 ≠ 0 then (a + 1) :: as else (a + 1) :: inc as

/-- The complement of all limbs. -/
def not (as : List UInt32) : List UInt32 := as.map (~~~·)

def neg (as : List UInt32) : List UInt32 := inc (not as)

def sub (as bs : List UInt32) : List UInt32 := add 0 as (neg bs)

/-- Compare the lowest limbs, the highest of them first. -/
def compare (as bs : List UInt32) : Nat → Ordering
  | 0 => .eq
  | i + 1 =>
    if as.getD i 0 < bs.getD i 0 then .lt
    else if as.getD i 0 > bs.getD i 0 then .gt
    else compare as bs i

/-- The loop body of a shift to the left: limb `i`, `k` limbs and `shift` bits up. -/
def shlStep (as : List UInt32) (k shift : Nat) (out : List UInt32) (i : Nat) : List UInt32 :=
  let out :=
    if i + k + 1 < as.length ∧ shift ≠ 0 then out.modify (i + k + 1) (· ||| as.getD i 0 >>> UInt32.ofNat (32 - shift)) else out
  if i + k < as.length then out.modify (i + k) (· ||| as.getD i 0 <<< UInt32.ofNat shift) else out

def shl (as : List UInt32) (shift : Nat) : List UInt32 :=
  (List.range as.length).foldl (shlStep as (shift / 32) (shift % 32)) (List.replicate as.length 0)

/-- The loop body of a shift to the right. -/
def shrStep (as : List UInt32) (k shift : Nat) (out : List UInt32) (i : Nat) : List UInt32 :=
  let out :=
    if k + 1 ≤ i ∧ shift ≠ 0 then out.modify (i - k - 1) (· ||| as.getD i 0 <<< UInt32.ofNat (32 - shift)) else out
  if k ≤ i then out.modify (i - k) (· ||| as.getD i 0 >>> UInt32.ofNat shift) else out

def shr (as : List UInt32) (shift : Nat) : List UInt32 :=
  (List.range as.length).foldl (shrStep as (shift / 32) (shift % 32)) (List.replicate as.length 0)

/-- The position after the highest bit of a limb that is not zero, from bit `nbits` down. -/
def topBit (limb : UInt32) : Nat → Nat
  | 0 => 1
  | nbits + 1 => if limb &&& (1 <<< UInt32.ofNat (nbits + 1)) ≠ 0 then nbits + 2 else topBit limb nbits

/-- The position after the highest bit among the lowest limbs. -/
def size (as : List UInt32) : Nat → Nat
  | 0 => 0
  | pos + 1 => if as.getD pos 0 ≠ 0 then 32 * pos + topBit (as.getD pos 0) 31 else size as pos

def setBit (as : List UInt32) (n : Nat) : List UInt32 := as.modify (n / 32) (· ||| 1 <<< UInt32.ofNat (n % 32))

/-- The turns of a division that are left; the divisor stands as many places up, less one. -/
def divide : Nat → List UInt32 → List UInt32 → List UInt32 → List UInt32
  | 0, _, _, quotient => quotient
  | shift + 1, num, div, quotient =>
    if compare num div num.length ≠ .lt then divide shift (sub num div) (shr div 1) (setBit quotient shift)
    else divide shift num (shr div 1) quotient

theorem length_add {as : List UInt32} : ∀ {bs : List UInt32} {carry : UInt64}, as.length = bs.length →
    (add carry as bs).length = as.length := by
  induction as with
  | nil => exact fun _ => rfl
  | cons a as ih =>
    intro bs carry hlength
    cases bs with
    | nil => cases hlength
    | cons b bs => exact congrArg (· + 1) (ih (Nat.succ.inj hlength))

theorem length_row {x : UInt32} {acc : List UInt32} : ∀ {bs : List UInt32} {carry : UInt64},
    (row x carry acc bs).length = acc.length := by
  induction acc with
  | nil =>
    intro bs carry
    cases bs <;> rfl
  | cons a acc ih =>
    intro bs carry
    cases bs with
    | nil => rfl
    | cons b bs => exact congrArg (· + 1) ih

theorem length_rows {bs xs : List UInt32} : ∀ {acc : List UInt32}, (rows bs xs acc).length = acc.length := by
  induction xs with
  | nil => exact fun {acc} => rfl
  | cons x xs ih =>
    intro acc
    unfold rows
    rw [← @length_row x acc bs 0]
    cases row x 0 acc bs with
    | nil => rfl
    | cons low high => exact congrArg (· + 1) ih

theorem length_inc (as : List UInt32) : (inc as).length = as.length := by
  induction as with
  | nil => rfl
  | cons a as ih =>
    unfold inc
    split
    · rfl
    · exact congrArg (· + 1) ih

theorem length_not (as : List UInt32) : (not as).length = as.length := List.length_map _

theorem length_neg (as : List UInt32) : (neg as).length = as.length := (length_inc _).trans (length_not as)

theorem length_sub {as bs : List UInt32} (hlength : as.length = bs.length) : (sub as bs).length = as.length :=
  length_add (hlength.trans (length_neg bs).symm)

theorem length_foldl {step : List UInt32 → Nat → List UInt32} (hstep : ∀ out i, (step out i).length = out.length)
    (positions : List Nat) : ∀ out, (positions.foldl step out).length = out.length := by
  induction positions with
  | nil => exact fun _ => rfl
  | cons i rest ih => exact fun out => (ih _).trans (hstep out i)

theorem length_shlStep (as : List UInt32) (k shift : Nat) (out : List UInt32) (i : Nat) :
    (shlStep as k shift out i).length = out.length := by
  unfold shlStep
  dsimp only
  split <;> split <;> simp only [List.length_modify]

theorem length_shrStep (as : List UInt32) (k shift : Nat) (out : List UInt32) (i : Nat) :
    (shrStep as k shift out i).length = out.length := by
  unfold shrStep
  dsimp only
  split <;> split <;> simp only [List.length_modify]

theorem length_shl (as : List UInt32) (shift : Nat) : (shl as shift).length = as.length :=
  (length_foldl (length_shlStep as _ _) _ _).trans List.length_replicate

theorem length_shr (as : List UInt32) (shift : Nat) : (shr as shift).length = as.length :=
  (length_foldl (length_shrStep as _ _) _ _).trans List.length_replicate

theorem length_setBit (as : List UInt32) (n : Nat) : (setBit as n).length = as.length := List.length_modify ..

theorem length_divide {n : Nat} : ∀ {num div quotient : List UInt32}, (divide n num div quotient).length = quotient.length := by
  induction n with
  | zero => exact rfl
  | succ n ih =>
    intro num div quotient
    unfold divide
    split
    · exact ih.trans (length_setBit _ _)
    · exact ih

theorem pow_length_cons (a : UInt32) (as : List UInt32) : 2 ^ (32 * (a :: as).length) = 2 ^ 32 * 2 ^ (32 * as.length) := by
  rw [← pow_add, List.length_cons, Nat.mul_succ, Nat.add_comm]

/-- A sum is what its limbs are worth, up to what has been carried out of them. -/
theorem exists_value_add {as : List UInt32} : ∀ {bs : List UInt32} {carry : UInt64}, as.length = bs.length →
    carry.toNat ≤ 1 → ∃ excess, value (add carry as bs) + 2 ^ (32 * as.length) * excess = carry.toNat + value as + value bs := by
  induction as with
  | nil =>
    intro bs carry hlength _
    rw [List.eq_nil_of_length_eq_zero hlength.symm]
    refine ⟨carry.toNat, ?_⟩
    show 0 + 2 ^ 0 * carry.toNat = carry.toNat + 0 + 0
    omega
  | cons a as ih =>
    intro bs carry hlength hcarry
    cases bs with
    | nil => cases hlength
    | cons b bs =>
      have ha := a.toNat_lt
      have hb := b.toNat_lt
      have hn : (carry + a.toUInt64 + b.toUInt64).toNat = carry.toNat + a.toNat + b.toNat := by
        rw [toNat_add_eq, toNat_add_eq, UInt32.toNat_toUInt64, UInt32.toNat_toUInt64]
        · rw [UInt32.toNat_toUInt64]
          omega
        · rw [toNat_add_eq, UInt32.toNat_toUInt64, UInt32.toNat_toUInt64]
          · omega
          · rw [UInt32.toNat_toUInt64]
            omega
      have hhigh := toNat_high (carry + a.toUInt64 + b.toUInt64)
      have hlow : ((carry + a.toUInt64 + b.toUInt64) &&& 0xFFFFFFFF).toUInt32.toNat =
          (carry.toNat + a.toNat + b.toNat) % 2 ^ 32 := by
        rw [toNat_limb, toNat_low, Nat.mod_mod, hn]
      obtain ⟨excess, hexcess⟩ := @ih bs ((carry + a.toUInt64 + b.toUInt64) >>> 32) (Nat.succ.inj hlength) (by omega)
      refine ⟨excess, ?_⟩
      unfold add
      dsimp only
      rw [pow_length_cons, Nat.mul_assoc, value_cons, value_cons, value_cons, hlow]
      generalize value (add ((carry + a.toUInt64 + b.toUInt64) >>> 32) as bs) = out at hexcess ⊢
      generalize 2 ^ (32 * as.length) * excess = past at hexcess ⊢
      omega

theorem mod_of_add_mul {out excess total n : Nat} (hlt : out < 2 ^ n) (htotal : out + 2 ^ n * excess = total) :
    out = total % 2 ^ n := by
  rw [← htotal, Nat.add_mul_mod_self_left, Nat.mod_eq_of_lt hlt]

theorem value_add {as bs : List UInt32} (hlength : as.length = bs.length) :
    value (add 0 as bs) = (value as + value bs) % 2 ^ (32 * as.length) := by
  obtain ⟨excess, hexcess⟩ := @exists_value_add as bs 0 hlength (by decide)
  have hlt := value_lt (add 0 as bs)
  rw [length_add hlength] at hlt
  rw [mod_of_add_mul hlt hexcess]
  show (0 + _ + _) % _ = _
  rw [Nat.zero_add]

theorem exists_value_row {x : UInt32} {acc : List UInt32} : ∀ {bs : List UInt32} {carry : UInt64}, acc.length ≤ bs.length →
    carry.toNat < 2 ^ 32 → ∃ excess,
      value (row x carry acc bs) + 2 ^ (32 * acc.length) * excess = carry.toNat + value acc + x.toNat * value bs := by
  induction acc with
  | nil =>
    intro bs carry _ _
    refine ⟨carry.toNat + x.toNat * value bs, ?_⟩
    have hnil : row x carry [] bs = [] := by cases bs <;> rfl
    rw [hnil, value_nil, List.length_nil, Nat.mul_zero, Nat.pow_zero]
    omega
  | cons a acc ih =>
    intro bs carry hlength hcarry
    cases bs with
    | nil => cases hlength
    | cons b bs =>
      have ha := a.toNat_lt
      have hroom := mul_add_add_lt x.toNat_lt b.toNat_lt hcarry ha
      have hmul : (x.toUInt64 * b.toUInt64).toNat = x.toNat * b.toNat := by
        rw [toNat_mul_eq] <;> rw [UInt32.toNat_toUInt64, UInt32.toNat_toUInt64]
        omega
      have hadd : (carry + a.toUInt64).toNat = carry.toNat + a.toNat := by
        rw [toNat_add_eq] <;> rw [UInt32.toNat_toUInt64]
        omega
      have hn : (carry + a.toUInt64 + x.toUInt64 * b.toUInt64).toNat = carry.toNat + a.toNat + x.toNat * b.toNat := by
        rw [toNat_add_eq] <;> rw [hadd, hmul]
        omega
      have hhigh := toNat_high (carry + a.toUInt64 + x.toUInt64 * b.toUInt64)
      have hlow : ((carry + a.toUInt64 + x.toUInt64 * b.toUInt64) &&& 0xFFFFFFFF).toUInt32.toNat =
          (carry.toNat + a.toNat + x.toNat * b.toNat) % 2 ^ 32 := by
        rw [toNat_limb, toNat_low, Nat.mod_mod, hn]
      obtain ⟨excess, hexcess⟩ := @ih bs ((carry + a.toUInt64 + x.toUInt64 * b.toUInt64) >>> 32)
        (Nat.le_of_succ_le_succ hlength) (by omega)
      refine ⟨excess, ?_⟩
      unfold row
      dsimp only
      rw [pow_length_cons, Nat.mul_assoc, value_cons, value_cons, value_cons, hlow, Nat.mul_add x.toNat,
        Nat.mul_left_comm x.toNat]
      generalize value (row x ((carry + a.toUInt64 + x.toUInt64 * b.toUInt64) >>> 32) acc bs) = out at hexcess ⊢
      generalize 2 ^ (32 * acc.length) * excess = past at hexcess ⊢
      generalize x.toNat * b.toNat = product at hroom hn hhigh ⊢
      generalize x.toNat * value bs = rest at hexcess ⊢
      omega

theorem exists_value_rows {bs xs : List UInt32} : ∀ {acc : List UInt32}, acc.length ≤ bs.length → ∃ excess,
    value (rows bs xs acc) + 2 ^ (32 * acc.length) * excess = value acc + value xs * value bs := by
  induction xs with
  | nil =>
    intro acc _
    exact ⟨0, by rw [rows, value_nil, Nat.zero_mul, Nat.mul_zero]⟩
  | cons x xs ih =>
    intro acc hlength
    obtain ⟨excess, hexcess⟩ := @exists_value_row x acc bs 0 hlength (by decide)
    have hrow := @length_row x acc bs 0
    have hzero : (0 : UInt64).toNat = 0 := rfl
    unfold rows
    cases hout : row x 0 acc bs with
    | nil =>
      rw [hout] at hrow
      obtain rfl := List.eq_nil_of_length_eq_zero hrow.symm
      refine ⟨value (x :: xs) * value bs, ?_⟩
      show 0 + 2 ^ 0 * _ = 0 + _
      rw [Nat.pow_zero, Nat.one_mul]
    | cons low high =>
      rw [hout] at hrow hexcess
      cases acc with
      | nil => cases hrow
      | cons a acc =>
        obtain ⟨past, hpast⟩ := @ih high (by rw [Nat.succ.inj hrow]; exact Nat.le_of_succ_le hlength)
        rw [Nat.succ.inj hrow] at hpast
        refine ⟨excess + past, ?_⟩
        dsimp only
        rw [pow_length_cons] at hexcess ⊢
        rw [value_cons low] at hexcess ⊢
        rw [hzero] at hexcess
        rw [value_cons x, Nat.add_mul, Nat.mul_assoc (2 ^ 32)]
        generalize 2 ^ (32 * acc.length) = width at hexcess hpast ⊢
        linear_combination hexcess + 2 ^ 32 * hpast

/-- A product cut off at the width. -/
theorem value_rows {xs bs : List UInt32} : value (rows bs xs (List.replicate bs.length 0)) =
    value xs * value bs % 2 ^ (32 * bs.length) := by
  obtain ⟨excess, hexcess⟩ := @exists_value_rows bs xs (List.replicate bs.length 0) (by rw [List.length_replicate])
  have hlt := value_lt (rows bs xs (List.replicate bs.length 0))
  rw [length_rows, List.length_replicate] at hlt
  rw [List.length_replicate, value_replicate_zero, Nat.zero_add] at hexcess
  exact mod_of_add_mul hlt hexcess

theorem value_not (as : List UInt32) : value (not as) + value as + 1 = 2 ^ (32 * as.length) := by
  induction as with
  | nil => rfl
  | cons a as ih =>
    have ha := a.toNat_lt
    have hnot : (~~~a).toNat = 2 ^ 32 - 1 - a.toNat := UInt32.toNat_not a
    have hcons : not (a :: as) = ~~~a :: not as := rfl
    rw [hcons, pow_length_cons, value_cons, value_cons, hnot, ← ih]
    omega

theorem value_inc (as : List UInt32) : value (inc as) = (value as + 1) % 2 ^ (32 * as.length) := by
  induction as with
  | nil => rfl
  | cons a as ih =>
    have ha := a.toNat_lt
    have hlt := value_lt as
    have hsum : (a + 1).toNat = (a.toNat + 1) % 2 ^ 32 := UInt32.toNat_add a 1
    unfold inc
    rw [pow_length_cons, value_cons]
    split
    · next hne =>
      have hpos : (a + 1).toNat ≠ 0 := fun hzero => hne (UInt32.toNat_inj.mp hzero)
      rw [value_cons, hsum]
      rw [hsum] at hpos
      rw [Nat.mod_eq_of_lt (show a.toNat + 1 < 2 ^ 32 by omega), Nat.mod_eq_of_lt (by omega)]
      omega
    · next hzero =>
      have hmax : (a.toNat + 1) % 2 ^ 32 = 0 := by rw [← hsum, not_not.mp hzero]; rfl
      rw [value_cons, hsum, hmax, ih, Nat.zero_add, ← Nat.mul_mod_mul_left]
      congr 1
      omega

/-- The negative of a number, modulo the width. -/
theorem value_neg (as : List UInt32) : (value (neg as) + value as) % 2 ^ (32 * as.length) = 0 := by
  have hnot := value_not as
  unfold neg
  rw [value_inc, length_not, Nat.mod_add_mod, Nat.add_right_comm, hnot, Nat.mod_self]

theorem value_sub {as bs : List UInt32} (hlength : as.length = bs.length) (hle : value bs ≤ value as) :
    value (sub as bs) = value as - value bs := by
  have hneg := value_neg bs
  have hlt := value_lt as
  have hbs := value_lt (neg bs)
  have hbound := value_lt bs
  rw [length_neg] at hbs
  unfold sub
  rw [value_add (hlength.trans (length_neg bs).symm), hlength]
  rw [hlength] at hlt
  generalize 2 ^ (32 * bs.length) = width at hneg hlt hbs hbound ⊢
  obtain ⟨turns, hturns⟩ := Nat.dvd_of_mod_eq_zero hneg
  have hfew : turns = 0 ∨ turns = 1 := by
    have hless : turns < 2 := by
      by_contra hmany
      have hmul := Nat.mul_le_mul_left width (Nat.le_of_not_lt hmany)
      omega
    omega
  obtain rfl | rfl := hfew
  · have hzero : value bs = 0 ∧ value (neg bs) = 0 := by omega
    rw [hzero.1, hzero.2, Nat.add_zero, Nat.mod_eq_of_lt hlt, Nat.sub_zero]
  · rw [show value as + value (neg bs) = (value as - value bs) + width * 1 by omega, Nat.add_mul_mod_self_left,
      Nat.mod_eq_of_lt (by omega)]

theorem value_take_succ {as : List UInt32} {i : Nat} (hi : i < as.length) :
    value (as.take (i + 1)) = value (as.take i) + 2 ^ (32 * i) * (as.getD i 0).toNat := by
  rw [List.take_add_one, List.getElem?_eq_getElem hi, Option.toList_some, value_append, List.length_take_of_le hi.le,
    List.getD_eq_getElem _ _ hi, value_cons, value_nil, Nat.mul_zero, Nat.add_zero]

/-- The comparison from the highest limb down is that of the numbers. -/
theorem compare_eq {as bs : List UInt32} {n : Nat} : n ≤ as.length → n ≤ bs.length →
    compare as bs n = Ord.compare (value (as.take n)) (value (bs.take n)) := by
  induction n with
  | zero =>
    intro _ _
    rw [compare, List.take_zero, List.take_zero, Nat.compare_eq_eq.mpr rfl]
  | succ i ih =>
    intro has hbs
    have hlow_as : value (as.take i) < 2 ^ (32 * i) := by
      have hlt := value_lt (as.take i)
      rwa [List.length_take_of_le (Nat.le_of_succ_le has)] at hlt
    have hlow_bs : value (bs.take i) < 2 ^ (32 * i) := by
      have hlt := value_lt (bs.take i)
      rwa [List.length_take_of_le (Nat.le_of_succ_le hbs)] at hlt
    have hmul : ∀ {x y : Nat}, x < y → 2 ^ (32 * i) * x + 2 ^ (32 * i) ≤ 2 ^ (32 * i) * y := fun hxy => by
      rw [← Nat.mul_succ]
      exact Nat.mul_le_mul_left _ hxy
    rw [value_take_succ has, value_take_succ hbs, compare]
    split
    · next hless =>
      have hstep := hmul (UInt32.lt_iff_toNat_lt.mp hless)
      exact (Nat.compare_eq_lt.mpr (by omega)).symm
    split
    · next hgreater =>
      have hstep := hmul (UInt32.lt_iff_toNat_lt.mp hgreater)
      exact (Nat.compare_eq_gt.mpr (by omega)).symm
    · next hnot_less hnot_greater =>
      rw [UInt32.lt_iff_toNat_lt] at hnot_less
      rw [gt_iff_lt, UInt32.lt_iff_toNat_lt] at hnot_greater
      have hsame : (as.getD i 0).toNat = (bs.getD i 0).toNat := by omega
      rw [ih (Nat.le_of_succ_le has) (Nat.le_of_succ_le hbs), hsame]
      simp only [Nat.compare_eq_ite_lt, Nat.add_lt_add_iff_right]

theorem compare_ne_lt {as bs : List UInt32} (hlength : as.length = bs.length) :
    compare as bs as.length ≠ .lt ↔ value bs ≤ value as := by
  rw [compare_eq le_rfl hlength.le, List.take_length, List.take_of_length_le hlength.symm.le, Ne, Nat.compare_eq_lt,
    Nat.not_lt]

theorem testBit_value (as : List UInt32) (n : Nat) : (value as).testBit n = (as.getD (n / 32) 0).toNat.testBit (n % 32) := by
  rw [← bit_eq_testBit, bit, bit_limb _ (Nat.mod_lt n (by decide))]

/-- A list of limbs spells a number, if it has the right bits. -/
theorem value_eq_of_testBit {as : List UInt32} {x : Nat} (hx : x < 2 ^ (32 * as.length))
    (hbits : ∀ p j, p < as.length → j < 32 → (as.getD p 0).toNat.testBit j = x.testBit (32 * p + j)) : value as = x := by
  refine Nat.eq_of_testBit_eq fun n => ?_
  rw [testBit_value]
  by_cases hp : n / 32 < as.length
  · rw [hbits _ _ hp (Nat.mod_lt n (by decide)), Nat.div_add_mod]
  · rw [List.getD_eq_default _ _ (Nat.le_of_not_lt hp), Nat.testBit_lt_two_pow (hx.trans_le (Nat.pow_le_pow_right (by decide) (by omega)))]
    exact Nat.zero_testBit _

theorem testBit_shl_limb (a : UInt32) {shift j : Nat} (hshift : shift < 32) (hj : j < 32) :
    (a <<< UInt32.ofNat shift).toNat.testBit j = (decide (shift ≤ j) && a.toNat.testBit (j - shift)) := by
  rw [UInt32.toNat_shiftLeft, UInt32.toNat_ofNat', Nat.mod_mod_of_dvd shift (by decide), Nat.mod_eq_of_lt hshift,
    Nat.testBit_mod_two_pow, Nat.testBit_shiftLeft, decide_eq_true hj, Bool.true_and]

theorem testBit_shr_limb (a : UInt32) {shift : Nat} (hshift : shift < 32) (j : Nat) :
    (a >>> UInt32.ofNat shift).toNat.testBit j = a.toNat.testBit (shift + j) := by
  rw [UInt32.toNat_shiftRight, UInt32.toNat_ofNat', Nat.mod_mod_of_dvd shift (by decide), Nat.mod_eq_of_lt hshift,
    Nat.testBit_shiftRight]

theorem testBit_limb_eq_false (a : UInt32) {j : Nat} (hj : 32 ≤ j) : a.toNat.testBit j = false :=
  Nat.testBit_lt_two_pow (a.toNat_lt.trans_le (Nat.pow_le_pow_right (by decide) hj))

theorem getD_modify (as : List UInt32) (f : UInt32 → UInt32) {p i : Nat} (hp : p < as.length) :
    (as.modify i f).getD p 0 = if i = p then f (as.getD p 0) else as.getD p 0 := by
  rw [List.getD_eq_getElem?_getD, List.getElem?_modify, List.getD_eq_getElem?_getD, List.getElem?_eq_getElem hp]
  split
  · rfl
  · rfl

/-- A limb after another one may have been or-ed into it. -/
theorem getD_orAt {out : List UInt32} {p : Nat} (hp : p < out.length) (i : Nat) (limb : UInt32) (guard : Prop) [Decidable guard] :
    (if guard then out.modify i (· ||| limb) else out).getD p 0 = out.getD p 0 ||| (if guard ∧ i = p then limb else 0) := by
  by_cases hguard : guard
  · rw [if_pos hguard, getD_modify _ _ hp]
    by_cases hi : i = p
    · rw [if_pos hi, if_pos ⟨hguard, hi⟩]
    · rw [if_neg hi, if_neg fun hboth => hi hboth.2]
      exact UInt32.or_zero.symm
  · rw [if_neg hguard, if_neg fun hboth => hguard hboth.1]
    exact UInt32.or_zero.symm

theorem length_orAt (out : List UInt32) (i : Nat) (limb : UInt32) (guard : Prop) [Decidable guard] :
    (if guard then out.modify i (· ||| limb) else out).length = out.length := by
  split
  · exact List.length_modify ..
  · rfl

/-- A loop that or-s its parts into the limbs sets the bits of the parts. -/
theorem testBit_foldl_or {step : List UInt32 → Nat → List UInt32} {part : Nat → Nat → UInt32} {width : Nat}
    (hlength : ∀ out i, (step out i).length = out.length)
    (hstep : ∀ out i p, out.length = width → p < width → (step out i).getD p 0 = out.getD p 0 ||| part i p)
    {p : Nat} (hp : p < width) (j n : Nat) :
    (((List.range n).foldl step (List.replicate width 0)).getD p 0).toNat.testBit j = true ↔
      ∃ i < n, (part i p).toNat.testBit j = true := by
  induction n with
  | zero =>
    rw [List.range_zero, List.foldl_nil, List.getD_eq_getElem _ _ (by rwa [List.length_replicate]), List.getElem_replicate]
    simp
  | succ n ih =>
    rw [List.range_succ, List.foldl_concat,
      hstep _ n p ((length_foldl hlength _ _).trans List.length_replicate) hp, UInt32.toNat_or, Nat.testBit_or,
      Bool.or_eq_true, ih]
    constructor
    · rintro (⟨i, hi, hbit⟩ | hbit)
      · exact ⟨i, Nat.lt_succ_of_lt hi, hbit⟩
      · exact ⟨n, Nat.lt_succ_self n, hbit⟩
    · rintro ⟨i, hi, hbit⟩
      obtain hlt | rfl := Nat.lt_succ_iff_lt_or_eq.mp hi
      · exact .inl ⟨i, hlt, hbit⟩
      · exact .inr hbit

theorem testBit_ite {guard : Prop} [Decidable guard] (limb : UInt32) (j : Nat) :
    (if guard then limb else 0).toNat.testBit j = true ↔ guard ∧ limb.toNat.testBit j = true := by
  split
  · next hguard => exact (and_iff_right hguard).symm
  · next hguard => simp [hguard]

theorem testBit_value_at (as : List UInt32) (i : Nat) {r : Nat} (hr : r < 32) :
    (value as).testBit (32 * i + r) = (as.getD i 0).toNat.testBit r := by
  rw [testBit_value, Nat.mul_add_div (by decide), Nat.div_eq_of_lt hr, Nat.add_zero, Nat.mul_add_mod, Nat.mod_eq_of_lt hr]

theorem lt_length_of_testBit {as : List UInt32} {i r : Nat} (hbit : (as.getD i 0).toNat.testBit r = true) : i < as.length := by
  by_contra hle
  rw [List.getD_eq_default _ _ (Nat.le_of_not_lt hle)] at hbit
  simp at hbit

/-- A shift to the left multiplies by a power of two, up to the width. -/
theorem value_shl (as : List UInt32) (shift : Nat) : value (shl as shift) = value as * 2 ^ shift % 2 ^ (32 * as.length) := by
  have hwidth := Nat.mod_lt (value as * 2 ^ shift) (Nat.two_pow_pos (32 * as.length))
  rw [← length_shl as shift] at hwidth
  refine value_eq_of_testBit (by rwa [length_shl] at hwidth ⊢) fun p j hp hj => ?_
  rw [length_shl] at hp
  have hsplit := Nat.div_add_mod shift 32
  have hless := Nat.mod_lt shift (show 32 > 0 by decide)
  have hpart := @testBit_foldl_or (shlStep as (shift / 32) (shift % 32)) _ as.length (length_shlStep as _ _)
    (fun out i p hlength hp => by
      rw [shlStep, getD_orAt (by rwa [length_orAt, hlength]), getD_orAt (by rwa [hlength]), UInt32.or_assoc]) p hp j as.length
  rw [Nat.testBit_mod_two_pow, ← Nat.shiftLeft_eq, Nat.testBit_shiftLeft, decide_eq_true (by omega), Bool.true_and,
    Bool.eq_iff_iff, shl, hpart, Bool.and_eq_true, decide_eq_true_iff]
  generalize shift / 32 = k at hsplit hpart ⊢
  generalize shift % 32 = t at hsplit hless hpart ⊢
  constructor
  · rintro ⟨i, hi, hbit⟩
    rw [UInt32.toNat_or, Nat.testBit_or, Bool.or_eq_true, testBit_ite, testBit_ite] at hbit
    obtain ⟨⟨⟨_, hne⟩, hplace⟩, hbit⟩ | ⟨⟨_, hplace⟩, hbit⟩ := hbit
    · rw [testBit_shr_limb _ (by omega)] at hbit
      have hsmall : 32 - t + j < 32 := by
        by_contra hlarge
        rw [testBit_limb_eq_false _ (by omega)] at hbit
        cases hbit
      refine ⟨by omega, ?_⟩
      rw [show 32 * p + j - shift = 32 * i + (32 - t + j) by omega, testBit_value_at _ _ hsmall]
      exact hbit
    · rw [testBit_shl_limb _ hless hj, Bool.and_eq_true, decide_eq_true_iff] at hbit
      refine ⟨by omega, ?_⟩
      rw [show 32 * p + j - shift = 32 * i + (j - t) by omega, testBit_value_at _ _ (by omega)]
      exact hbit.2
  · rintro ⟨hle, hbit⟩
    have hplace := Nat.div_add_mod (32 * p + j - shift) 32
    rw [testBit_value] at hbit
    have hi := lt_length_of_testBit hbit
    have hr := Nat.mod_lt (32 * p + j - shift) (show 32 > 0 by decide)
    generalize (32 * p + j - shift) / 32 = i at hplace hbit hi
    generalize (32 * p + j - shift) % 32 = r at hplace hbit hr
    refine ⟨i, hi, ?_⟩
    rw [UInt32.toNat_or, Nat.testBit_or, Bool.or_eq_true, testBit_ite, testBit_ite]
    by_cases hlow : t ≤ j
    · refine .inr ⟨⟨by omega, by omega⟩, ?_⟩
      rw [testBit_shl_limb _ hless hj, decide_eq_true hlow, Bool.true_and, show j - t = r by omega]
      exact hbit
    · refine .inl ⟨⟨⟨by omega, by omega⟩, by omega⟩, ?_⟩
      rw [testBit_shr_limb _ (by omega), show 32 - t + j = r by omega]
      exact hbit

/-- A shift to the right divides by a power of two. -/
theorem value_shr (as : List UInt32) (shift : Nat) : value (shr as shift) = value as / 2 ^ shift := by
  have hwidth : value as / 2 ^ shift < 2 ^ (32 * (shr as shift).length) := by
    rw [length_shr]
    exact (Nat.div_le_self _ _).trans_lt (value_lt as)
  refine value_eq_of_testBit hwidth fun p j hp hj => ?_
  rw [length_shr] at hp
  have hsplit := Nat.div_add_mod shift 32
  have hless := Nat.mod_lt shift (show 32 > 0 by decide)
  have hpart := @testBit_foldl_or (shrStep as (shift / 32) (shift % 32)) _ as.length (length_shrStep as _ _)
    (fun out i p hlength hp => by
      rw [shrStep, getD_orAt (by rwa [length_orAt, hlength]), getD_orAt (by rwa [hlength]), UInt32.or_assoc]) p hp j as.length
  rw [← Nat.shiftRight_eq_div_pow, Nat.testBit_shiftRight, Bool.eq_iff_iff, shr, hpart]
  generalize shift / 32 = k at hsplit hpart ⊢
  generalize shift % 32 = t at hsplit hless hpart ⊢
  constructor
  · rintro ⟨i, hi, hbit⟩
    rw [UInt32.toNat_or, Nat.testBit_or, Bool.or_eq_true, testBit_ite, testBit_ite] at hbit
    obtain ⟨⟨⟨hle, hne⟩, hplace⟩, hbit⟩ | ⟨⟨hle, hplace⟩, hbit⟩ := hbit
    · rw [testBit_shl_limb _ (by omega) hj, Bool.and_eq_true, decide_eq_true_iff] at hbit
      rw [show shift + (32 * p + j) = 32 * i + (j - (32 - t)) by omega, testBit_value_at _ _ (by omega)]
      exact hbit.2
    · rw [testBit_shr_limb _ hless] at hbit
      have hsmall : t + j < 32 := by
        by_contra hlarge
        rw [testBit_limb_eq_false _ (by omega)] at hbit
        cases hbit
      rw [show shift + (32 * p + j) = 32 * i + (t + j) by omega, testBit_value_at _ _ hsmall]
      exact hbit
  · intro hbit
    have hplace := Nat.div_add_mod (shift + (32 * p + j)) 32
    rw [testBit_value] at hbit
    have hi := lt_length_of_testBit hbit
    have hr := Nat.mod_lt (shift + (32 * p + j)) (show 32 > 0 by decide)
    generalize (shift + (32 * p + j)) / 32 = i at hplace hbit hi
    generalize (shift + (32 * p + j)) % 32 = r at hplace hbit hr
    refine ⟨i, hi, ?_⟩
    rw [UInt32.toNat_or, Nat.testBit_or, Bool.or_eq_true, testBit_ite, testBit_ite]
    by_cases hlow : t + j < 32
    · refine .inr ⟨⟨by omega, by omega⟩, ?_⟩
      rw [testBit_shr_limb _ hless, show t + j = r by omega]
      exact hbit
    · refine .inl ⟨⟨⟨by omega, by omega⟩, by omega⟩, ?_⟩
      rw [testBit_shl_limb _ (by omega) hj, decide_eq_true (by omega), Bool.true_and, show j - (32 - t) = r by omega]
      exact hbit

theorem testBit_setBit (as : List UInt32) {n : Nat} (hn : n < 32 * as.length) : value (setBit as n) = value as ||| 2 ^ n := by
  have hfit : value as ||| 2 ^ n < 2 ^ (32 * (setBit as n).length) := by
    rw [length_setBit]
    exact Nat.or_lt_two_pow (value_lt as) (Nat.pow_lt_pow_right (by decide) hn)
  refine value_eq_of_testBit hfit fun p j hp hj => ?_
  rw [length_setBit] at hp
  have hplace := Nat.div_add_mod n 32
  have hless := Nat.mod_lt n (show 32 > 0 by decide)
  rw [setBit, getD_modify _ _ hp, Nat.testBit_or, testBit_value_at _ _ hj, Nat.testBit_two_pow]
  by_cases hlimb : n / 32 = p
  · rw [if_pos hlimb, UInt32.toNat_or, Nat.testBit_or, testBit_shl_limb _ hless hj]
    congr 1
    rw [show (1 : UInt32).toNat = 2 ^ 0 from rfl, Nat.testBit_two_pow, Bool.eq_iff_iff, Bool.and_eq_true]
    simp only [decide_eq_true_iff]
    omega
  · rw [if_neg hlimb, decide_eq_false (by omega), Bool.or_false]

/-- A bit above which all bits are set already is added. -/
theorem value_setBit {as : List UInt32} {n : Nat} (hn : n < 32 * as.length) (hclear : 2 ^ (n + 1) ∣ value as) :
    value (setBit as n) = value as + 2 ^ n := by
  obtain ⟨high, hhigh⟩ := hclear
  rw [testBit_setBit as hn, hhigh, ← Nat.two_pow_add_eq_or_of_lt (Nat.pow_lt_pow_right (by decide) (Nat.lt_succ_self n))]

theorem topBit_eq {limb : UInt32} (hne : limb ≠ 0) : ∀ {nbits : Nat}, nbits < 32 → limb.toNat < 2 ^ (nbits + 1) →
    topBit limb nbits = Nat.size limb.toNat := by
  have hpos : 0 < limb.toNat := Nat.pos_of_ne_zero fun hzero => hne (UInt32.toNat_inj.mp hzero)
  intro nbits
  induction nbits with
  | zero =>
    intro _ hlt
    rw [topBit, show limb.toNat = 1 by omega]
    rfl
  | succ nbits ih =>
    intro hbits hlt
    have hbit : limb &&& (1 <<< UInt32.ofNat (nbits + 1)) ≠ 0 ↔ limb.toNat.testBit (nbits + 1) = true := by
      have hone : ((1 : UInt32) <<< UInt32.ofNat (nbits + 1)).toNat = 2 ^ (nbits + 1) := by
        rw [UInt32.toNat_shiftLeft, UInt32.toNat_ofNat', Nat.mod_mod_of_dvd _ (by decide), Nat.mod_eq_of_lt hbits,
          show (1 : UInt32).toNat = 1 from rfl, Nat.shiftLeft_eq, Nat.one_mul]
        exact Nat.mod_eq_of_lt (Nat.pow_lt_pow_right (by decide) hbits)
      rw [Ne, ← UInt32.toNat_inj, UInt32.toNat_and, hone, show (0 : UInt32).toNat = 0 from rfl, ← Bool.not_eq_false, not_iff_not]
      constructor
      · intro hzero
        have hread := congrArg (Nat.testBit · (nbits + 1)) hzero
        simpa [Nat.testBit_two_pow] using hread
      · intro hclear
        refine Nat.eq_of_testBit_eq fun j => ?_
        rw [Nat.testBit_and, Nat.testBit_two_pow, Nat.zero_testBit]
        by_cases hj : nbits + 1 = j
        · rw [← hj, hclear, Bool.false_and]
        · rw [decide_eq_false hj, Bool.and_false]
    rw [topBit]
    split
    · next hset =>
      have hge := Nat.ge_two_pow_of_testBit (hbit.mp hset)
      exact (le_antisymm (Nat.size_le.mpr hlt) (Nat.lt_size.mpr hge)).symm
    · next hclear =>
      refine ih (by omega) ?_
      by_contra hge
      exact hclear (hbit.mpr (Nat.testBit_of_two_pow_le_and_two_pow_add_one_gt (Nat.le_of_not_lt hge) hlt))

theorem size_eq {as : List UInt32} {n : Nat} : n ≤ as.length → size as n = Nat.size (value (as.take n)) := by
  induction n with
  | zero => exact fun _ => Nat.size_zero.symm
  | succ pos ih =>
    intro hpos
    have hlow : value (as.take pos) < 2 ^ (32 * pos) := by
      have hlt := value_lt (as.take pos)
      rwa [List.length_take_of_le (Nat.le_of_succ_le hpos)] at hlt
    rw [size, value_take_succ hpos]
    split
    · next hne =>
      rw [topBit_eq hne (by decide) (UInt32.toNat_lt _)]
      have hlimb : 0 < (as.getD pos 0).toNat := Nat.pos_of_ne_zero fun hzero => hne (UInt32.toNat_inj.mp hzero)
      generalize (as.getD pos 0).toNat = limb at hlimb ⊢
      obtain ⟨top, htop⟩ := Nat.exists_eq_succ_of_ne_zero (Nat.size_pos.mpr hlimb).ne'
      have hlower : 2 ^ top ≤ limb := Nat.lt_size.mp (by omega)
      have hupper : limb < 2 ^ (top + 1) := Nat.size_le.mp htop.le
      refine le_antisymm ?_ (Nat.size_le.mpr ?_)
      · rw [htop, Nat.add_succ, Nat.succ_le_iff, Nat.lt_size, pow_add]
        exact (Nat.mul_le_mul_left _ hlower).trans (Nat.le_add_left _ _)
      · rw [htop, pow_add]
        calc value (as.take pos) + 2 ^ (32 * pos) * limb < 2 ^ (32 * pos) * (limb + 1) := by rw [Nat.mul_succ]; omega
          _ ≤ 2 ^ (32 * pos) * 2 ^ (top + 1) := Nat.mul_le_mul_left _ hupper
    · next hzero =>
      rw [not_not.mp hzero, ih (Nat.le_of_succ_le hpos)]
      rfl

/-- The turns that are left divide what is left of the number. -/
theorem value_divide {d : Nat} (hd : 0 < d) {n : Nat} : ∀ {num div quotient : List UInt32}, num.length = div.length →
    n ≤ 32 * quotient.length → value num < d * 2 ^ n → (n ≠ 0 → value div = d * 2 ^ (n - 1)) → 2 ^ n ∣ value quotient →
      value (divide n num div quotient) = value quotient + value num / d := by
  induction n with
  | zero =>
    intro num div quotient _ _ hnum _ _
    rw [Nat.pow_zero, Nat.mul_one] at hnum
    rw [divide, Nat.div_eq_of_lt hnum, Nat.add_zero]
  | succ shift ih =>
    intro num div quotient hlength hn hnum hdiv hquotient
    have hdiv := hdiv (Nat.succ_ne_zero shift)
    rw [Nat.add_sub_cancel] at hdiv
    have hnext : shift ≠ 0 → value (shr div 1) = d * 2 ^ (shift - 1) := by
      intro hpos
      obtain ⟨less, rfl⟩ := Nat.exists_eq_succ_of_ne_zero hpos
      rw [value_shr, hdiv, Nat.pow_succ, ← Nat.mul_assoc, Nat.pow_one, Nat.mul_div_cancel _ (by decide), Nat.succ_sub_one]
    have hpow : d * 2 ^ (shift + 1) = d * 2 ^ shift + d * 2 ^ shift := by
      rw [Nat.pow_succ, ← Nat.mul_assoc, Nat.mul_two]
    have hdvd : 2 ^ shift ∣ 2 ^ (shift + 1) := pow_dvd_pow 2 (Nat.le_succ shift)
    rw [divide]
    split
    · next hge =>
      rw [compare_ne_lt hlength, hdiv] at hge
      have hbit := value_setBit (Nat.lt_of_succ_le hn) hquotient
      have hrest : value (sub num div) = value num - d * 2 ^ shift := by
        rw [value_sub hlength (by rw [hdiv]; exact hge), hdiv]
      rw [ih (by rw [length_sub hlength, length_shr, hlength]) (by rw [length_setBit]; omega) (by omega) hnext
        (by rw [hbit]; exact Nat.dvd_add (hdvd.trans hquotient) (Nat.dvd_refl _)), hbit, hrest, Nat.add_assoc]
      congr 1
      conv_rhs => rw [← Nat.sub_add_cancel hge, Nat.add_mul_div_left _ _ hd]
      exact Nat.add_comm _ _
    · next hless =>
      rw [compare_ne_lt hlength, hdiv, Nat.not_le] at hless
      exact ih (by rw [length_shr, hlength]) (by omega) hless hnext (hdvd.trans hquotient)

end limbs
