import Mathlib.Data.Nat.Basic
import Mathlib.Algebra.Order.Ring.Nat
import Mathlib.Order.Monotone.Basic
import Mathlib.Data.List.TakeWhile

/-! Fixed-width little-endian byte strings. -/

namespace littleEndian

/-- The `n` low bytes of `v`, least significant first. -/
def toBytes : Nat → Nat → List UInt8
  | 0, _ => []
  | n + 1, v => UInt8.ofNat v :: toBytes n (v / 256)

/-- The number whose little-endian digits are the given bytes. -/
def ofBytes : List UInt8 → Nat
  | [] => 0
  | b :: bs => b.toNat + 256 * ofBytes bs

@[simp]
theorem length_toBytes (n v : Nat) : (toBytes n v).length = n := by
  induction n generalizing v with
  | zero => rfl
  | succ n ih => simp [toBytes, ih]

/-- Encoding at a width that holds the number loses nothing. -/
theorem ofBytes_toBytes {n v : Nat} (hfit : v < 256 ^ n) : ofBytes (toBytes n v) = v := by
  induction n generalizing v with
  | zero =>
    have hzero : v = 0 := by simpa using hfit
    simp [toBytes, ofBytes, hzero]
  | succ n ih =>
    have htail : v / 256 < 256 ^ n := by
      rw [Nat.pow_succ] at hfit
      omega
    simp only [toBytes, ofBytes, ih htail, UInt8.toNat_ofNat']
    omega

theorem ofBytes_lt (bytes : List UInt8) : ofBytes bytes < 256 ^ bytes.length := by
  induction bytes with
  | nil => simp [ofBytes]
  | cons b bs ih =>
    have hb := b.toNat_lt
    simp only [ofBytes, List.length_cons, Nat.pow_succ]
    omega

theorem ofBytes_concat (bytes : List UInt8) (last : UInt8) :
    ofBytes (bytes ++ [last]) = ofBytes bytes + last.toNat * 256 ^ bytes.length := by
  induction bytes with
  | nil => simp [ofBytes]
  | cons b bs ih =>
    simp only [List.cons_append, ofBytes, ih, List.length_cons, Nat.pow_succ]
    rw [Nat.mul_add, Nat.add_assoc, Nat.mul_comm (256 ^ bs.length) 256, Nat.mul_left_comm]

/-- Every byte string of a width is the encoding of a number. -/
theorem toBytes_ofBytes (bytes : List UInt8) : toBytes bytes.length (ofBytes bytes) = bytes := by
  induction bytes with
  | nil => rfl
  | cons b bs ih =>
    have hb := b.toNat_lt
    have htail : (b.toNat + 256 * ofBytes bs) / 256 = ofBytes bs := by omega
    simp only [ofBytes, List.length_cons, toBytes, htail, ih, List.cons.injEq, and_true]
    apply UInt8.toNat_inj.mp
    rw [UInt8.toNat_ofNat']
    omega

end littleEndian

/-! Rounding numbers down to multiples of a power of two. -/

namespace truncate

/-- The greatest multiple of `2 ^ k` that is at most `n`. -/
def down (k n : Nat) : Nat := n / 2 ^ k * 2 ^ k

theorem down_le (k n : Nat) : down k n ≤ n := Nat.div_mul_le_self n (2 ^ k)

theorem down_mono (k : Nat) : Monotone (down k) := fun _ _ h =>
  Nat.mul_le_mul_right _ (Nat.div_le_div_right h)

/-- What is rounded stays as it is. -/
theorem down_down (k n : Nat) : down k (down k n) = down k n := by
  unfold down
  rw [Nat.mul_div_cancel _ (Nat.two_pow_pos k)]

theorem down_zero (n : Nat) : down 0 n = n := by simp [down]

/-- A larger power of two below a number stays below its rounding. -/
theorem pow_le_down {k j n : Nat} (hk : k ≤ j) (hj : 2 ^ j ≤ n) : 2 ^ j ≤ down k n := by
  have hsplit : 2 ^ (j - k) * 2 ^ k = 2 ^ j := by
    rw [← Nat.pow_add, Nat.sub_add_cancel hk]
  rw [← hsplit]
  apply Nat.mul_le_mul_right
  rw [Nat.le_div_iff_mul_le (Nat.two_pow_pos k), hsplit]
  exact hj

end truncate

/-! Big-endian numbers, and pairs of them in the distinguished encoding rules. -/

namespace der

/-- The `width` low bytes of `n`, most significant first. -/
def bytes (width n : Nat) : List UInt8 := (littleEndian.toBytes width n).reverse

/-- The number whose big-endian digits are the given bytes. -/
def value (bytes : List UInt8) : Nat := littleEndian.ofBytes bytes.reverse

/-- A number of at most `width` bytes, without leading zeros. -/
def magnitude (width n : Nat) : List UInt8 := (bytes width n).dropWhile (· == 0)

/-- The contents of an integer: a zero keeps a high first bit apart from a sign. -/
def integer (width n : Nat) : List UInt8 :=
  match magnitude width n with
  | [] => [0]
  | first :: rest => if 0x80 ≤ first then 0 :: first :: rest else first :: rest

/-- A sequence of two integers, their lengths in one byte each. -/
def signature (width : Nat) (sig : Nat × Nat) : List UInt8 :=
  let r := integer width sig.1
  let s := integer width sig.2
  0x30 :: UInt8.ofNat (4 + r.length + s.length) :: 0x02 :: UInt8.ofNat r.length ::
    (r ++ 0x02 :: UInt8.ofNat s.length :: s)

variable {width n : Nat}

@[simp]
theorem length_bytes (width n : Nat) : (bytes width n).length = width := by
  rw [bytes, List.length_reverse, littleEndian.length_toBytes]

theorem value_bytes (hfit : n < 256 ^ width) : value (bytes width n) = n := by
  rw [value, bytes, List.reverse_reverse, littleEndian.ofBytes_toBytes hfit]

theorem value_cons (byte : UInt8) (rest : List UInt8) :
    value (byte :: rest) = value rest + byte.toNat * 256 ^ rest.length := by
  rw [value, List.reverse_cons, littleEndian.ofBytes_concat, List.length_reverse]
  rfl

theorem length_magnitude_le (width n : Nat) : (magnitude width n).length ≤ width := by
  have hle := (List.dropWhile_suffix (l := bytes width n) (· == 0)).length_le
  rwa [length_bytes] at hle

theorem ofBytes_zeros (count : Nat) : littleEndian.ofBytes (List.replicate count 0) = 0 := by
  induction count with
  | zero => rfl
  | succ count ih => rw [List.replicate_succ, littleEndian.ofBytes, ih]; rfl

/-- Zeros in front of a magnitude give all the bytes back. -/
theorem zeros_append_magnitude (width n : Nat) :
    List.replicate (width - (magnitude width n).length) 0 ++ magnitude width n = bytes width n := by
  have hsplit := List.takeWhile_append_dropWhile (p := (· == (0 : UInt8))) (l := bytes width n)
  have hzeros : (bytes width n).takeWhile (· == 0) =
      List.replicate ((bytes width n).takeWhile (· == 0)).length 0 := by
    refine List.eq_replicate_of_mem fun byte hmem => ?_
    exact eq_of_beq (List.mem_takeWhile_imp (p := (· == (0 : UInt8))) hmem)
  have hlength : ((bytes width n).takeWhile (· == 0)).length = width - (magnitude width n).length := by
    have htotal := congrArg List.length hsplit
    rw [List.length_append, length_bytes] at htotal
    rw [magnitude]
    omega
  rw [hlength] at hzeros
  rw [← hzeros]
  exact hsplit

/-- The magnitude of a positive number starts with a byte that is not zero, and its encoding
    with one that is below the sign. -/
theorem integer_cases (hpos : 0 < n) (hfit : n < 256 ^ width) :
    ∃ first rest, magnitude width n = first :: rest ∧ first ≠ 0 ∧
      (0x80 ≤ first ∧ integer width n = 0 :: first :: rest ∨ first < 0x80 ∧ integer width n = first :: rest) := by
  cases hmagnitude : magnitude width n with
  | nil =>
    have hzeros := zeros_append_magnitude width n
    rw [hmagnitude, List.append_nil] at hzeros
    have hvalue := value_bytes hfit
    rw [← hzeros, value, List.reverse_replicate, ofBytes_zeros] at hvalue
    omega
  | cons first rest =>
    have hne : first ≠ 0 := fun hzero => by
      have hhead := List.head?_dropWhile_not (· == (0 : UInt8)) (bytes width n)
      rw [show (bytes width n).dropWhile (· == 0) = first :: rest from hmagnitude, hzero] at hhead
      cases (hhead : ((0 : UInt8) == 0) = false)
    refine ⟨first, rest, rfl, hne, ?_⟩
    rw [integer, hmagnitude]
    by_cases hhigh : 0x80 ≤ first
    · exact .inl ⟨hhigh, if_pos hhigh⟩
    · exact .inr ⟨UInt8.not_le.mp hhigh, if_neg hhigh⟩

theorem dropWhile_integer (hpos : 0 < n) (hfit : n < 256 ^ width) :
    (integer width n).dropWhile (· == 0) = magnitude width n := by
  obtain ⟨first, rest, hmagnitude, hne, ⟨_, hinteger⟩ | ⟨_, hinteger⟩⟩ := integer_cases hpos hfit
  · rw [hinteger, hmagnitude, List.dropWhile_cons_of_pos rfl, List.dropWhile_cons_of_neg (by simpa using hne)]
  · rw [hinteger, hmagnitude, List.dropWhile_cons_of_neg (by simpa using hne)]

theorem length_integer (hpos : 0 < n) (hfit : n < 256 ^ width) :
    1 ≤ (integer width n).length ∧ (integer width n).length ≤ width + 1 := by
  have hle := length_magnitude_le width n
  obtain ⟨first, rest, hmagnitude, hne, ⟨_, hinteger⟩ | ⟨_, hinteger⟩⟩ := integer_cases hpos hfit
  · rw [hmagnitude, List.length_cons] at hle
    rw [hinteger, List.length_cons, List.length_cons]
    omega
  · rw [hmagnitude, List.length_cons] at hle
    rw [hinteger, List.length_cons]
    omega

theorem length_signature (width : Nat) (sig : Nat × Nat) :
    (signature width sig).length = 6 + (integer width sig.1).length + (integer width sig.2).length := by
  simp only [signature, List.length_cons, List.length_append]
  omega

end der
