import Mathlib.Tactic

/-! Base64: an encoder with padding, and a decoder that takes padding away and every other byte
    for a digit. The decoder inverts the encoder. -/

namespace base64

/-- The digits. -/
def alphabet : List UInt8 :=
  "ABCDEFGHIJKLMNOPQRSTUVWXYZabcdefghijklmnopqrstuvwxyz0123456789+/".toList.map Char.toUInt8

/-- `=`. -/
def padding : UInt8 := 0x3d

/-- The digit for the six lowest bits of a number. -/
def digit (n : Nat) : UInt8 := alphabet.getD (n &&& 0x3f) 0

/-- Three bytes as one number. -/
def triple (b0 b1 b2 : UInt8) : Nat := (b0.toNat <<< 16) ||| (b1.toNat <<< 8) ||| b2.toNat

/-- Four digits for every three bytes; the last group is filled up. -/
def encode : List UInt8 → List UInt8
  | b0 :: b1 :: b2 :: rest =>
    let n := triple b0 b1 b2
    digit (n >>> 18) :: digit (n >>> 12) :: digit (n >>> 6) :: digit n :: encode rest
  | [b0, b1] =>
    let n := triple b0 b1 0
    [digit (n >>> 18), digit (n >>> 12), digit (n >>> 6), padding]
  | [b0] =>
    let n := triple b0 0 0
    [digit (n >>> 18), digit (n >>> 12), padding, padding]
  | [] => []

/-- The place of a digit, zero for what is none. -/
def position (byte : UInt8) : UInt8 := if byte ∈ alphabet then UInt8.ofNat (alphabet.idxOf byte) else 0

/-- The bytes of groups of four digits. -/
def join : List UInt8 → List UInt8
  | c0 :: c1 :: c2 :: c3 :: rest =>
    (c0 <<< 2 ||| c1 >>> 4) :: (c1 <<< 4 ||| c2 >>> 2) :: (c2 <<< 6 ||| c3) :: join rest
  | [c0, c1, c2] => [c0 <<< 2 ||| c1 >>> 4, c1 <<< 4 ||| c2 >>> 2]
  | [c0, c1] => [c0 <<< 2 ||| c1 >>> 4]
  | _ => []

def places (input : List UInt8) : List UInt8 := (input.filter fun byte => byte != padding).map position

def decode (input : List UInt8) : List UInt8 := join (places input)

theorem triple_eq (b0 b1 b2 : UInt8) :
    triple b0 b1 b2 = b0.toNat * 2 ^ 16 + b1.toNat * 2 ^ 8 + b2.toNat := by
  have h1 := b1.toNat_lt
  have h2 := b2.toNat_lt
  have hlow : (b1.toNat <<< 8) ||| b2.toNat = b1.toNat * 2 ^ 8 + b2.toNat := by
    rw [Nat.shiftLeft_eq, Nat.mul_comm, Nat.two_pow_add_eq_or_of_lt h2]
  rw [triple, Nat.or_assoc, hlow, Nat.shiftLeft_eq, Nat.mul_comm b0.toNat,
    ← Nat.two_pow_add_eq_or_of_lt (by omega), Nat.add_assoc]

theorem triple_shifts (b0 b1 b2 : UInt8) :
    triple b0 b1 b2 >>> 18 = b0.toNat / 4 ∧ triple b0 b1 b2 >>> 12 = b0.toNat * 16 + b1.toNat / 16 ∧
      triple b0 b1 b2 >>> 6 = b0.toNat * 1024 + b1.toNat * 4 + b2.toNat / 64 := by
  have h1 := b1.toNat_lt
  have h2 := b2.toNat_lt
  have hn := triple_eq b0 b1 b2
  simp only [Nat.shiftRight_eq_div_pow]
  omega

/-- Every digit has its place, and is no padding. -/
theorem digit_spec (n : Nat) :
    digit n ≠ padding ∧ position (digit n) = UInt8.ofNat (n % 64) ∧ (digit n).toNat < 128 := by
  have hall : ∀ i : Fin 64, alphabet.getD i.val 0 ≠ padding ∧
      position (alphabet.getD i.val 0) = UInt8.ofNat i.val ∧ (alphabet.getD i.val 0).toNat < 128 := by
    decide +kernel
  have hmask : n &&& 0x3f = n % 64 := Nat.and_two_pow_sub_one_eq_mod n 6
  unfold digit
  rw [hmask]
  exact hall ⟨n % 64, Nat.mod_lt n (by decide)⟩

/-- The first byte of two digits, the byte between two digits and the last byte. -/
theorem join_digits (i j : Fin 64) :
    (UInt8.ofNat i.val <<< 2 ||| UInt8.ofNat j.val >>> 4).toNat = i.val * 4 + j.val / 16 ∧
    (UInt8.ofNat i.val <<< 4 ||| UInt8.ofNat j.val >>> 2).toNat = i.val % 16 * 16 + j.val / 4 ∧
    (UInt8.ofNat i.val <<< 6 ||| UInt8.ofNat j.val).toNat = i.val % 4 * 64 + j.val := by
  revert i j
  decide +kernel

theorem first_byte (n m : Nat) :
    UInt8.ofNat (n % 64) <<< 2 ||| UInt8.ofNat (m % 64) >>> 4 = UInt8.ofNat (n % 64 * 4 + m % 64 / 16) := by
  have hjoin := join_digits ⟨n % 64, Nat.mod_lt n (by decide)⟩ ⟨m % 64, Nat.mod_lt m (by decide)⟩
  rw [← hjoin.1, UInt8.ofNat_toNat]

theorem second_byte (n m : Nat) :
    UInt8.ofNat (n % 64) <<< 4 ||| UInt8.ofNat (m % 64) >>> 2 = UInt8.ofNat (n % 64 % 16 * 16 + m % 64 / 4) := by
  have hjoin := join_digits ⟨n % 64, Nat.mod_lt n (by decide)⟩ ⟨m % 64, Nat.mod_lt m (by decide)⟩
  rw [← hjoin.2.1, UInt8.ofNat_toNat]

theorem third_byte (n m : Nat) :
    UInt8.ofNat (n % 64) <<< 6 ||| UInt8.ofNat (m % 64) = UInt8.ofNat (n % 64 % 4 * 64 + m % 64) := by
  have hjoin := join_digits ⟨n % 64, Nat.mod_lt n (by decide)⟩ ⟨m % 64, Nat.mod_lt m (by decide)⟩
  rw [← hjoin.2.2, UInt8.ofNat_toNat]

theorem places_digit (n : Nat) (rest : List UInt8) :
    places (digit n :: rest) = UInt8.ofNat (n % 64) :: places rest := by
  obtain ⟨hpadding, hposition, _⟩ := digit_spec n
  unfold places
  rw [List.filter_cons_of_pos (by simpa using hpadding), List.map_cons, hposition]

theorem places_padding (rest : List UInt8) : places (padding :: rest) = places rest := by
  unfold places
  rw [List.filter_cons_of_neg (by simp)]

theorem ofNat_eq {n : Nat} {b : UInt8} (heq : n = b.toNat) : UInt8.ofNat n = b := by
  rw [heq, UInt8.ofNat_toNat]

/-- The decoder inverts the encoder. -/
theorem decode_encode (bytes : List UInt8) : decode (encode bytes) = bytes := by
  induction bytes using encode.induct with
  | case1 b0 b1 b2 rest ih =>
    have h0 := b0.toNat_lt
    have h1 := b1.toNat_lt
    have h2 := b2.toNat_lt
    obtain ⟨h18, h12, h6⟩ := triple_shifts b0 b1 b2
    have hn := triple_eq b0 b1 b2
    unfold decode at ih ⊢
    rw [encode, places_digit, places_digit, places_digit, places_digit, join, ih, first_byte, second_byte,
      third_byte]
    rw [h18, h12, h6, ofNat_eq (b := b0) (by omega), ofNat_eq (b := b1) (by omega), ofNat_eq (b := b2) (by omega)]
  | case2 b0 b1 =>
    have h0 := b0.toNat_lt
    have h1 := b1.toNat_lt
    obtain ⟨h18, h12, h6⟩ := triple_shifts b0 b1 0
    rw [show (0 : UInt8).toNat = 0 from rfl] at h6
    unfold decode
    rw [encode, places_digit, places_digit, places_digit, places_padding, show places [] = [] from rfl, join,
      first_byte, second_byte, h18, h12, h6, ofNat_eq (b := b0) (by omega), ofNat_eq (b := b1) (by omega)]
  | case3 b0 =>
    have h0 := b0.toNat_lt
    obtain ⟨h18, h12, _⟩ := triple_shifts b0 0 0
    rw [show (0 : UInt8).toNat = 0 from rfl] at h12
    have hhigh : b0.toNat / 4 % 64 = b0.toNat / 4 := Nat.mod_eq_of_lt (by omega)
    unfold decode
    rw [encode, places_digit, places_digit, places_padding, places_padding,
      show places [] = [] from rfl, join, first_byte, h18, h12, hhigh, ofNat_eq (b := b0) (by omega)]
  | case4 => rfl

/-- What is encoded is printed in seven bits. -/
theorem encode_lt (bytes : List UInt8) : ∀ byte ∈ encode bytes, byte.toNat < 128 := by
  have hdigit : ∀ n, (digit n).toNat < 128 := fun n => (digit_spec n).2.2
  have hpadding : padding.toNat < 128 := by decide
  induction bytes using encode.induct with
  | case1 b0 b1 b2 rest ih =>
    rw [encode]
    simp only [List.forall_mem_cons]
    exact ⟨hdigit _, hdigit _, hdigit _, hdigit _, ih⟩
  | case2 b0 b1 =>
    rw [encode]
    simp only [List.forall_mem_cons]
    exact ⟨hdigit _, hdigit _, hdigit _, hpadding, by simp⟩
  | case3 b0 =>
    rw [encode]
    simp only [List.forall_mem_cons]
    exact ⟨hdigit _, hdigit _, hpadding, hpadding, by simp⟩
  | case4 => simp [encode]

end base64
