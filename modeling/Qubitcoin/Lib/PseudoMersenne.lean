import Mathlib.Data.ZMod.Basic
import Mathlib.FieldTheory.Finite.Basic
import Mathlib.Tactic

/-! Reduction modulo `N - D` by folding what is above `N` back in, powers by squaring, and
    quotients of products. -/

namespace pseudo_mersenne

/-- What is above `N` counts `D` times. -/
def fold (N D n : Nat) : Nat := n % N + n / N * D

/-- The second fold does not fit below `N`. -/
def Spills (N D n : Nat) : Prop := N ≤ fold N D (fold N D n)

instance (N D n : Nat) : Decidable (Spills N D n) := inferInstanceAs (Decidable (N ≤ _))

/-- Two folds, cut off at `N`, and a last subtraction. -/
def reduced (N D n : Nat) : Nat := fold N D (fold N D n) % N % (N - D)

section

variable {N D n : Nat}

theorem fold_mod (hle : D ≤ N) : fold N D n % (N - D) = n % (N - D) := by
  have hsplit : n = fold N D n + (N - D) * (n / N) := by
    have hdiv := Nat.mod_add_div n N
    have hmul : N * (n / N) = (N - D) * (n / N) + n / N * D := by
      rw [Nat.mul_comm (n / N) D, ← Nat.add_mul, Nat.sub_add_cancel hle]
    unfold fold
    omega
  conv_rhs => rw [hsplit, Nat.add_mul_mod_self_left]

/-- A number of twice the length folds to little more than `N`. -/
theorem fold_fold_le (hn : n < N * N) : fold N D (fold N D n) ≤ N - 1 + D * D := by
  have hpos : 0 < N := Nat.pos_of_mul_pos_left (Nat.zero_lt_of_lt hn)
  have hfirst : fold N D n < N * (D + 1) := by
    have hhigh : n / N ≤ N - 1 := Nat.le_pred_of_lt (Nat.div_lt_of_lt_mul hn)
    have hlow := Nat.mod_lt n hpos
    have hmul : n / N * D ≤ N * D := Nat.mul_le_mul_right D (by omega)
    unfold fold
    rw [Nat.mul_succ]
    omega
  have hquotient : fold N D n / N ≤ D := Nat.le_of_lt_succ (Nat.div_lt_of_lt_mul hfirst)
  have hlow := Nat.mod_lt (fold N D n) hpos
  have hmul : fold N D n / N * D ≤ D * D := Nat.mul_le_mul_right D hquotient
  show fold N D n % N + fold N D n / N * D ≤ N - 1 + D * D
  omega

/-- The cut off second fold is the residue unless it loses its top. -/
theorem reduced_eq_iff (hD : 0 < D) (hN : D * D + 2 * D ≤ N) (hn : n < N * N) :
    reduced N D n = n % (N - D) ↔ ¬ Spills N D n := by
  have hle : D ≤ N := by omega
  have hmod : fold N D (fold N D n) % (N - D) = n % (N - D) := by rw [fold_mod hle, fold_mod hle]
  have hbound := @fold_fold_le N D n hn
  unfold reduced Spills
  rw [Nat.not_le]
  constructor
  · intro heq
    by_contra hspills
    -- the lost top counts for `D`, which is not zero modulo `N - D`
    have hcut : fold N D (fold N D n) % N = fold N D (fold N D n) - N := by
      rw [Nat.mod_eq_sub_mod (by omega), Nat.mod_eq_of_lt (by omega)]
    have hresidue : fold N D (fold N D n) % (N - D) = fold N D (fold N D n) - (N - D) := by
      rw [Nat.mod_eq_sub_mod (by omega), Nat.mod_eq_of_lt (by omega)]
    rw [hcut, Nat.mod_eq_of_lt (by omega), ← hmod, hresidue] at heq
    omega
  · intro hfits
    rw [Nat.mod_eq_of_lt hfits, hmod]

theorem reduced_lt (hlt : D < N) : reduced N D n < N - D := Nat.mod_lt _ (by omega)

end

section

variable {m a e : Nat}

/-- The exponents that a run over the bits of `e` goes through, from the top one down. -/
theorem div_two_pow (e k : Nat) : e / 2 ^ k = 2 * (e / 2 ^ (k + 1)) + (e.testBit k).toNat := by
  have hhalf : e / 2 ^ (k + 1) = e / 2 ^ k / 2 := by rw [pow_succ, Nat.div_div_eq_div_mul]
  have hbit : (e.testBit k).toNat = e / 2 ^ k % 2 := by rw [Nat.toNat_testBit]
  omega

theorem square_pow_mod (n : Nat) : (a ^ n % m) * (a ^ n % m) % m = a ^ (2 * n) % m := by
  rw [← Nat.mul_mod, ← pow_add, two_mul]

theorem mul_pow_mod (n : Nat) : (a ^ n % m) * a % m = a ^ (n + 1) % m := by
  rw [Nat.mod_mul_mod, pow_succ]

end

/-- What Fermat's theorem says of a number. -/
def Fermat (m a : Nat) : Prop := a ^ (m - 1) % m = 1

theorem fermat_of_prime {m a : Nat} (hprime : m.Prime) (hpos : 0 < a) (hlt : a < m) : Fermat m a := by
  have hone : a ^ (m - 1) ≡ 1 [MOD m] := by
    rw [← Nat.totient_prime hprime]
    exact Nat.ModEq.pow_totient (Nat.coprime_of_lt_prime hpos.ne' hlt hprime).symm
  exact Eq.trans hone (Nat.mod_eq_of_lt hprime.one_lt)

/-- The power is the inverse. -/
theorem Fermat.mul_pow {m a : Nat} (hfermat : Fermat m a) (hm : 2 ≤ m) : a * a ^ (m - 2) ≡ 1 [MOD m] := by
  have hexp : m - 1 = m - 2 + 1 := by omega
  have hone : a ^ (m - 1) % m = 1 % m := hfermat.trans (Nat.mod_eq_of_lt hm).symm
  rw [hexp, pow_succ'] at hone
  exact hone

/-- Equal quotients, from equal products across. -/
theorem quotient_modEq {m a b c d : Nat} (hm : 2 ≤ m) (hb : Fermat m b) (hd : Fermat m d)
    (hcross : a * d ≡ c * b [MOD m]) : a * b ^ (m - 2) ≡ c * d ^ (m - 2) [MOD m] := by
  calc a * b ^ (m - 2) = a * b ^ (m - 2) * 1 := (mul_one _).symm
    _ ≡ a * b ^ (m - 2) * (d * d ^ (m - 2)) [MOD m] := (hd.mul_pow hm).symm.mul_left _
    _ = a * d * (b ^ (m - 2) * d ^ (m - 2)) := by ring
    _ ≡ c * b * (b ^ (m - 2) * d ^ (m - 2)) [MOD m] := hcross.mul_right _
    _ = c * d ^ (m - 2) * (b * b ^ (m - 2)) := by ring
    _ ≡ c * d ^ (m - 2) * 1 [MOD m] := (hb.mul_pow hm).mul_left _
    _ = c * d ^ (m - 2) := mul_one _

end pseudo_mersenne
