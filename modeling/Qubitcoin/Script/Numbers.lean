import Qubitcoin.Script.Parse
import Qubitcoin.Script.Stack

/-! `qubitcoin-script/script_num.rs`: the bytes of script numbers. Numbers are read back from
    their bytes, and bytes that are read as minimal are those of their number. -/

namespace qubitcoin.interpreter

open vm

namespace ScriptNum

/-- `x << shift` for an `i64`. -/
def shift_left (x : BitVec 64) (shift : Nat) : Except Panic (BitVec 64) :=
  if shift < 64 then .ok (x <<< shift) else .error (.overflow .i64)

/-- The loop over the bytes from the `i`-th one on. -/
def or_bytes : Nat → List UInt8 → BitVec 64 → Except Panic (BitVec 64)
  | _, [], result => .ok result
  | i, byte :: rest, result => do
    let shifted ← shift_left (byte.toBitVec.setWidth 64) (8 * i)
    or_bytes (i + 1) rest (result ||| shifted)

/-- `-x` for an `i64`. -/
def negate (x : BitVec 64) : Except Panic Int :=
  if x = BitVec.intMin 64 then .error (.overflow .i64) else .ok (-x.toInt)

def decode_bytes (vch : List UInt8) : Except Panic Int :=
  match vch.getLast? with
  | none => .ok 0
  | some last => do
    let result ← or_bytes 0 vch 0
    if last &&& 0x80 ≠ 0 then do
      let sign ← shift_left 0x80 (8 * (vch.length - 1))
      negate (result &&& ~~~sign)
    else .ok result.toInt

def from_bytes (vch : List UInt8) (require_minimal : Bool) (max_num_size : Nat) : Except (Failure String) Int := do
  require (!decide (max_num_size < vch.length)) (.invalid "script number overflow")
  require (!(require_minimal && !minimally_encoded vch)) (.invalid "non-minimally encoded script number")
  (decode_bytes vch).mapError .panic

theorem or_bytes_eq {bytes : List UInt8} : ∀ {i : Nat} {result : BitVec 64}, result.toNat < 2 ^ (8 * i) →
    i + bytes.length ≤ 8 → ∃ value, or_bytes i bytes result = .ok value ∧
      value.toNat = result.toNat + 2 ^ (8 * i) * littleEndian.ofBytes bytes := by
  induction bytes with
  | nil =>
    intro i result _ _
    exact ⟨result, rfl, by rw [littleEndian.ofBytes, Nat.mul_zero, Nat.add_zero]⟩
  | cons byte rest ih =>
    intro i result hresult hlength
    rw [List.length_cons] at hlength
    have hbyte : byte.toNat < 2 ^ 8 := byte.toNat_lt
    have hpow : 2 ^ (8 * (i + 1)) = 2 ^ (8 * i) * 2 ^ 8 := by rw [← pow_add, Nat.mul_succ]
    have hroom : byte.toNat * 2 ^ (8 * i) + 2 ^ (8 * i) ≤ 2 ^ (8 * (i + 1)) := by
      rw [hpow, ← Nat.succ_mul, Nat.mul_comm (2 ^ (8 * i))]
      exact Nat.mul_le_mul_right _ hbyte
    have hwidth : 2 ^ (8 * (i + 1)) ≤ 2 ^ 64 := Nat.pow_le_pow_right (by decide) (by omega)
    have hpos : 0 < 2 ^ (8 * i) := Nat.two_pow_pos _
    have hwide : byte.toNat % 2 ^ 64 = byte.toNat := Nat.mod_eq_of_lt (by omega)
    have hshifted : (byte.toBitVec.setWidth 64 <<< (8 * i)).toNat = 2 ^ (8 * i) * byte.toNat := by
      rw [BitVec.toNat_shiftLeft, BitVec.toNat_setWidth, UInt8.toNat_toBitVec, hwide, Nat.shiftLeft_eq,
        Nat.mod_eq_of_lt (by omega), Nat.mul_comm]
    have hor : (result ||| byte.toBitVec.setWidth 64 <<< (8 * i)).toNat = result.toNat + 2 ^ (8 * i) * byte.toNat := by
      rw [BitVec.toNat_or, hshifted, Nat.or_comm, ← Nat.two_pow_add_eq_or_of_lt hresult, Nat.add_comm]
    obtain ⟨value, hvalue, hsum⟩ := @ih (i + 1) (result ||| byte.toBitVec.setWidth 64 <<< (8 * i))
      (by rw [hor]; rw [Nat.mul_comm] at hroom; omega) (by omega)
    refine ⟨value, ?_, ?_⟩
    · rw [or_bytes, shift_left, if_pos (by omega)]
      exact hvalue
    · rw [hsum, hor, hpow, littleEndian.ofBytes]
      ring

theorem or_bytes_long {bytes : List UInt8} : ∀ {i : Nat} {result : BitVec 64}, i ≤ 8 → 8 < i + bytes.length →
    or_bytes i bytes result = .error (.overflow .i64) := by
  induction bytes with
  | nil =>
    intro i result hi hlong
    rw [List.length_nil] at hlong
    omega
  | cons byte rest ih =>
    intro i result hi hlong
    rw [List.length_cons] at hlong
    rw [or_bytes, shift_left]
    by_cases height : i = 8
    · rw [if_neg (by omega)]
      rfl
    · rw [if_pos (by omega)]
      exact ih (by omega) (by omega)

theorem toNat_clear {x : BitVec 64} {k low : Nat} (hk : k < 64) (hlow : low < 2 ^ k) (hx : x.toNat = 2 ^ k + low) :
    (x &&& ~~~((1 : BitVec 64) <<< k)).toNat = low := by
  have hbit : ((1 : BitVec 64) <<< k).toNat = 2 ^ k := by
    rw [BitVec.toNat_shiftLeft, show (1 : BitVec 64).toNat = 1 from rfl, Nat.shiftLeft_eq, Nat.one_mul]
    exact Nat.mod_eq_of_lt (Nat.pow_lt_pow_right (by decide) hk)
  have hpow : 2 ^ k < 2 ^ 64 := Nat.pow_lt_pow_right (by decide) hk
  refine Nat.eq_of_testBit_eq fun j => ?_
  have hsum := Nat.testBit_two_pow_mul_add 1 hlow j
  rw [Nat.mul_one] at hsum
  rw [BitVec.toNat_and, BitVec.toNat_not, hbit, hx, Nat.testBit_and, Nat.sub_sub, Nat.add_comm 1,
    Nat.testBit_two_pow_sub_succ hpow, hsum, Nat.testBit_two_pow]
  obtain hlt | rfl | hgt := Nat.lt_trichotomy j k
  · have hne : k ≠ j := by omega
    rw [if_pos hlt, decide_eq_true (by omega : j < 64), decide_eq_false hne]
    simp
  · rw [if_neg (Nat.lt_irrefl _), Nat.testBit_lt_two_pow hlow]
    simp
  · have hclear : low.testBit j = false :=
      Nat.testBit_lt_two_pow (hlow.trans (Nat.pow_lt_pow_right (by decide) hgt))
    have hone : Nat.testBit 1 (j - k) = false := Nat.testBit_lt_two_pow (Nat.one_lt_two_pow (by omega))
    rw [if_neg (by omega), hone, hclear, Bool.false_and]

/-- The number of which some bytes are the magnitude, the leading bit of the last one its sign. -/
def signed (body : List UInt8) (last : UInt8) : Int :=
  if last &&& 0x80 ≠ 0 then -((littleEndian.ofBytes body + (last.toNat - 128) * 256 ^ body.length : Nat) : Int)
  else (littleEndian.ofBytes body + last.toNat * 256 ^ body.length : Nat)

theorem decode_bytes_concat {body : List UInt8} {last : UInt8} (hlength : body.length < 8) :
    decode_bytes (body ++ [last]) = .ok (signed body last) := by
  have hbody := littleEndian.ofBytes_lt body
  have hlast := last.toNat_lt
  have hwidth : 256 ^ body.length = 2 ^ (8 * body.length) := (pow_mul 2 8 body.length).symm
  have hpow : 256 * 2 ^ (8 * body.length) ≤ 2 ^ 64 := by
    calc 256 * 2 ^ (8 * body.length) = 2 ^ (8 + 8 * body.length) := (pow_add 2 8 _).symm
      _ ≤ 2 ^ 64 := Nat.pow_le_pow_right (by decide) (by omega)
  obtain ⟨value, hvalue, hsum⟩ := @or_bytes_eq (body ++ [last]) 0 0 (by decide)
    (by rw [List.length_append, List.length_singleton]; omega)
  have htotal : value.toNat = littleEndian.ofBytes body + last.toNat * 2 ^ (8 * body.length) := by
    rw [hsum, littleEndian.ofBytes_concat, hwidth, Nat.mul_zero, Nat.pow_zero, Nat.one_mul]
    exact Nat.zero_add _
  unfold signed
  rw [hwidth] at hbody ⊢
  have hplace : (body ++ [last]).length - 1 = body.length := by
    rw [List.length_append, List.length_singleton, Nat.add_sub_cancel]
  unfold decode_bytes
  rw [List.getLast?_concat]
  dsimp only
  rw [hvalue, hplace]
  show (if last &&& 0x80 ≠ 0 then _ else _) = _
  have htop : 2 ^ (8 * body.length + 7) = 128 * 2 ^ (8 * body.length) := (pow_add 2 _ 7).trans (Nat.mul_comm _ _)
  have hshift : shift_left 0x80 (8 * body.length) = .ok ((1 : BitVec 64) <<< (8 * body.length + 7)) := by
    rw [shift_left, if_pos (by omega), Nat.add_comm, BitVec.shiftLeft_add]
    rfl
  have hclear := @toNat_clear value (8 * body.length + 7)
    (littleEndian.ofBytes body + (last.toNat - 128) * 2 ^ (8 * body.length)) (by omega)
  rw [htop] at hclear
  generalize 2 ^ (8 * body.length) = width at hbody hpow htotal hclear ⊢
  by_cases hsign : last &&& 0x80 ≠ 0
  · have hnegative := (sign_bit_iff last).mp hsign
    have hsplit : last.toNat * width = 128 * width + (last.toNat - 128) * width := by
      rw [← Nat.add_mul, Nat.add_sub_cancel' hnegative]
    have hrest : (last.toNat - 128) * width ≤ 127 * width := Nat.mul_le_mul_right _ (by omega)
    have hlow := hclear (by omega) (by omega)
    generalize hcleared : value &&& ~~~((1 : BitVec 64) <<< (8 * body.length + 7)) = cleared at hlow
    have hmin : cleared ≠ BitVec.intMin 64 := by
      intro heq
      rw [heq, show (BitVec.intMin 64).toNat = 2 ^ 63 from rfl] at hlow
      omega
    rw [if_pos hsign, if_pos hsign, hshift]
    show negate (value &&& ~~~((1 : BitVec 64) <<< (8 * body.length + 7))) = _
    rw [hcleared, negate, if_neg hmin, BitVec.toInt_eq_toNat_of_lt (by omega), hlow]
  · have hpositive : last.toNat < 128 := by
      by_contra hle
      exact hsign ((sign_bit_iff last).mpr (by omega))
    have hlt : value.toNat < 2 ^ 63 := by
      have hmul : last.toNat * width ≤ 127 * width := Nat.mul_le_mul_right _ (by omega)
      omega
    rw [if_neg hsign, if_neg hsign, BitVec.toInt_eq_toNat_of_lt (by omega), htotal]

theorem stack_to_script_num_eq (val : List UInt8) (require_minimal : Bool) (max_size : Nat) :
    stack_to_script_num val require_minimal max_size = (from_bytes val require_minimal max_size).mapError fun
      | .invalid _ => .invalid .ScriptNum
      | .panic why => .panic why := by
  have hdecode : vm.decode_bytes val = (decode_bytes val).mapError .panic := by
    unfold vm.decode_bytes
    rcases List.eq_nil_or_concat val with rfl | ⟨body, last, rfl⟩
    · rfl
    rw [List.concat_eq_append]
    have hlength : (body ++ [last]).length = body.length + 1 := by rw [List.length_append, List.length_singleton]
    by_cases hlong : 8 < (body ++ [last]).length
    · rw [if_pos hlong, decode_bytes, List.getLast?_concat]
      dsimp only
      rw [or_bytes_long (Nat.zero_le 8) (by omega)]
      rfl
    · rw [if_neg hlong, decode_bytes_concat (by omega), List.getLast?_concat]
      dsimp only
      rw [littleEndian.ofBytes_concat, hlength, Nat.add_sub_cancel, signed]
      split
      · next hsign =>
        have hle := (sign_bit_iff last).mp hsign
        show _ = Except.ok _
        congr 1
        push_cast [Nat.cast_sub hle]
        ring
      · rfl
  unfold stack_to_script_num from_bytes ensure
  rw [hdecode]
  by_cases hlength : val.length ≤ max_size
  · rw [decide_eq_true hlength, decide_eq_false (Nat.not_lt.mpr hlength)]
    cases require_minimal && !minimally_encoded val with
    | true => rfl
    | false =>
      show (decode_bytes val).mapError _ = ((decode_bytes val).mapError _).mapError _
      cases decode_bytes val <;> rfl
  · rw [decide_eq_false hlength, decide_eq_true (Nat.not_le.mp hlength)]
    rfl

theorem magnitude_ofBytes {body : List UInt8} {last : UInt8} (hlast : last ≠ 0) :
    ∀ {fuel : Nat}, body.length < fuel → magnitude fuel (littleEndian.ofBytes (body ++ [last])) = body ++ [last] := by
  have hpos : 0 < last.toNat := Nat.pos_of_ne_zero fun hzero => hlast (UInt8.toNat_inj.mp hzero)
  induction body with
  | nil =>
    intro fuel hfuel
    obtain ⟨fuel, rfl⟩ : ∃ less, fuel = less + 1 := ⟨fuel - 1, by omega⟩
    have hlt := last.toNat_lt
    show magnitude (fuel + 1) (last.toNat + 256 * 0) = [last]
    rw [magnitude, if_neg (by omega), show (last.toNat + 256 * 0) % 256 = last.toNat by omega,
      show (last.toNat + 256 * 0) / 256 = 0 by omega, UInt8.ofNat_toNat]
    cases fuel <;> rfl
  | cons byte body ih =>
    intro fuel hfuel
    obtain ⟨fuel, rfl⟩ : ∃ less, fuel = less + 1 := ⟨fuel - 1, by omega⟩
    have hlt := byte.toNat_lt
    have hrest : 0 < littleEndian.ofBytes (body ++ [last]) := by
      rw [littleEndian.ofBytes_concat]
      exact Nat.add_pos_right _ (Nat.mul_pos hpos (by positivity))
    have hvalue : littleEndian.ofBytes (byte :: body ++ [last]) = byte.toNat + 256 * littleEndian.ofBytes (body ++ [last]) := rfl
    rw [List.length_cons] at hfuel
    rw [hvalue, magnitude, if_neg (by omega)]
    generalize hwhole : littleEndian.ofBytes (body ++ [last]) = whole at hrest ih ⊢
    rw [show (byte.toNat + 256 * whole) % 256 = byte.toNat by omega,
      show (byte.toNat + 256 * whole) / 256 = whole by omega, UInt8.ofNat_toNat, ih (by omega)]
    rfl

theorem magnitude_concat {fuel absvalue : Nat} (hpos : 0 < absvalue) (hfit : absvalue < 256 ^ fuel) :
    ∃ body last, magnitude fuel absvalue = body ++ [last] ∧ last ≠ 0 := by
  induction fuel generalizing absvalue with
  | zero =>
    rw [Nat.pow_zero] at hfit
    omega
  | succ fuel ih =>
    rw [magnitude, if_neg (by omega)]
    by_cases hsmall : absvalue / 256 = 0
    · refine ⟨[], UInt8.ofNat (absvalue % 256), ?_, fun hzero => ?_⟩
      · rw [hsmall]
        cases fuel <;> rfl
      · have hbyte := congrArg UInt8.toNat hzero
        rw [UInt8.toNat_ofNat', show (0 : UInt8).toNat = 0 from rfl] at hbyte
        omega
    · obtain ⟨body, last, heq, hlast⟩ := @ih (absvalue / 256) (by omega) (by rw [Nat.pow_succ] at hfit; omega)
      exact ⟨UInt8.ofNat (absvalue % 256) :: body, last, by rw [heq]; rfl, hlast⟩

theorem encode_i64_of_magnitude {value : Int} {body : List UInt8} {last : UInt8} (hne : value ≠ 0)
    (hmagnitude : magnitude 8 value.natAbs = body ++ [last]) :
    encode_i64 value =
      if last &&& 0x80 ≠ 0 then body ++ [last] ++ [if value < 0 then 0x80 else 0x00]
      else body ++ [if value < 0 then last ||| 0x80 else last] := by
  unfold encode_i64
  rw [if_neg hne, hmagnitude]
  dsimp only
  rw [List.getLast?_concat]
  dsimp only
  split
  · by_cases hneg : value < 0
    · rw [decide_eq_true hneg, if_pos rfl, if_pos hneg]
    · rw [decide_eq_false hneg, if_neg Bool.false_ne_true, if_neg hneg]
  · by_cases hneg : value < 0
    · rw [decide_eq_true hneg, if_pos rfl, if_pos hneg, List.dropLast_concat]
    · rw [decide_eq_false hneg, if_neg Bool.false_ne_true, if_neg hneg]

theorem sign_of_byte (byte : UInt8) :
    (byte &&& 0x80 = 0 → byte &&& 0x7f = byte ∧ (byte ||| 0x80) &&& 0x80 ≠ 0 ∧ (byte ||| 0x80) &&& 0x7f = byte ∧
      (byte ||| 0x80).toNat - 128 = byte.toNat) ∧
    (byte &&& 0x80 ≠ 0 → (byte &&& 0x7f) ||| 0x80 = byte ∧ (byte &&& 0x7f).toNat = byte.toNat - 128) ∧
    (byte &&& 0x7f) &&& 0x80 = 0 ∧ (byte &&& 0x7f = 0 → byte = 0 ∨ byte = 0x80) := by
  obtain ⟨⟨bits⟩⟩ := byte
  revert bits
  decide +kernel

theorem minimally_encoded_concat (body : List UInt8) (last : UInt8) :
    minimally_encoded (body ++ [last]) = true ↔
      last &&& 0x7f ≠ 0 ∨ ∃ init second, body = init ++ [second] ∧ second &&& 0x80 ≠ 0 := by
  unfold minimally_encoded
  rw [List.reverse_append, List.reverse_singleton, List.singleton_append]
  dsimp only
  rw [Bool.or_eq_true, bne_iff_ne]
  refine or_congr_right ?_
  rcases List.eq_nil_or_concat body with rfl | ⟨init, second, rfl⟩
  · constructor
    · intro hfalse
      cases hfalse
    · rintro ⟨init, second, heq, _⟩
      exact absurd heq.symm (List.append_ne_nil_of_right_ne_nil init (List.cons_ne_nil _ _))
  · rw [List.concat_eq_append, List.reverse_append, List.reverse_singleton, List.singleton_append]
    dsimp only
    rw [bne_iff_ne]
    refine ⟨fun hsecond => ⟨init, second, rfl, hsecond⟩, ?_⟩
    rintro ⟨other, byte, heq, hbyte⟩
    obtain ⟨_, hlast⟩ := List.append_inj' heq rfl
    rw [List.singleton_inj.mp hlast]
    exact hbyte

theorem from_bytes_eq_ok {vch : List UInt8} {require_minimal : Bool} {k : Nat} {n : Int} :
    from_bytes vch require_minimal k = .ok n ↔
      vch.length ≤ k ∧ (require_minimal = true → minimally_encoded vch = true) ∧ decode_bytes vch = .ok n := by
  unfold from_bytes
  rw [bind_eq_ok_iff]
  simp only [bind_eq_ok_iff, require_eq_ok, mapError_eq_ok]
  constructor
  · rintro ⟨_, hlength, _, hminimal, hdecode⟩
    refine ⟨?_, fun hrequired => ?_, hdecode⟩
    · simpa using hlength
    · simpa [hrequired] using hminimal
  · rintro ⟨hlength, hminimal, hdecode⟩
    refine ⟨(), ?_, (), ?_, hdecode⟩
    · simpa using hlength
    · cases require_minimal with
      | false => rfl
      | true => simp [hminimal rfl]

theorem encode_i64_spec {n : Int} (hne : n ≠ 0) (hlow : -(2 ^ 63) < n) (hhigh : n < 2 ^ 63) :
    ∃ body last, encode_i64 n = body ++ [last] ∧ body.length < 8 ∧ minimally_encoded (body ++ [last]) = true ∧
      signed body last = n := by
  obtain ⟨body, last, hmagnitude, hlast⟩ := @magnitude_concat 8 n.natAbs (by omega) (by omega)
  have hvalue := @ofBytes_magnitude 8 n.natAbs (by omega)
  have hlength := length_magnitude_le 8 n.natAbs
  have hencode := encode_i64_of_magnitude hne hmagnitude
  rw [hmagnitude] at hvalue hlength
  rw [List.length_append, List.length_singleton] at hlength
  rw [littleEndian.ofBytes_concat] at hvalue
  by_cases hsign : last &&& 0x80 ≠ 0
  · -- A magnitude of eight bytes has a clear leading bit, so there is room for another byte.
    have hshort : body.length < 7 := by
      by_contra hlong
      have hseven : body.length = 7 := by omega
      have hlarge : 128 * 256 ^ 7 ≤ last.toNat * 256 ^ 7 := Nat.mul_le_mul_right _ ((sign_bit_iff last).mp hsign)
      rw [hseven] at hvalue
      omega
    rw [if_pos hsign] at hencode
    refine ⟨body ++ [last], _, hencode, ?_, (minimally_encoded_concat _ _).mpr (.inr ⟨body, last, rfl, hsign⟩), ?_⟩
    · rw [List.length_append, List.length_singleton]
      omega
    · unfold signed
      rw [littleEndian.ofBytes_concat, hvalue]
      by_cases hneg : n < 0
      · rw [if_pos hneg, if_pos (by decide), show (0x80 : UInt8).toNat - 128 = 0 from rfl, Nat.zero_mul]
        omega
      · rw [if_neg hneg, if_neg (by decide), show (0x00 : UInt8).toNat = 0 from rfl, Nat.zero_mul]
        omega
  · obtain ⟨hmask, hset, hclear, hsub⟩ := (sign_of_byte last).1 (not_not.mp hsign)
    rw [if_neg hsign] at hencode
    refine ⟨body, _, hencode, by omega, (minimally_encoded_concat _ _).mpr (.inl ?_), ?_⟩
    · split
      · rw [hclear]
        exact hlast
      · rw [hmask]
        exact hlast
    · unfold signed
      by_cases hneg : n < 0
      · rw [if_pos hneg, if_pos hset, hsub, hvalue]
        omega
      · rw [if_neg hneg, if_neg hsign, hvalue]
        omega

theorem from_bytes_encode_i64 {n : Int} (hlow : -(2 ^ 63) < n) (hhigh : n < 2 ^ 63) (require_minimal : Bool) {k : Nat}
    (hlength : (encode_i64 n).length ≤ k) : from_bytes (encode_i64 n) require_minimal k = .ok n := by
  by_cases hzero : n = 0
  · subst hzero
    exact from_bytes_eq_ok.mpr ⟨hlength, fun _ => rfl, rfl⟩
  · obtain ⟨body, last, hencode, hshort, hminimal, hvalue⟩ := encode_i64_spec hzero hlow hhigh
    rw [hencode] at hlength ⊢
    refine from_bytes_eq_ok.mpr ⟨hlength, fun _ => hminimal, ?_⟩
    rw [decode_bytes_concat hshort, hvalue]

theorem encode_i64_from_bytes {vch : List UInt8} {k : Nat} {n : Int} (hread : from_bytes vch true k = .ok n) :
    encode_i64 n = vch := by
  obtain ⟨_, hminimal, hdecode⟩ := from_bytes_eq_ok.mp hread
  rcases List.eq_nil_or_concat vch with rfl | ⟨body, last, rfl⟩
  · cases hdecode
    rfl
  rw [List.concat_eq_append] at hminimal hdecode ⊢
  have hshort : body.length < 8 := by
    by_contra hlong
    rw [decode_bytes, List.getLast?_concat] at hdecode
    dsimp only at hdecode
    rw [or_bytes_long (Nat.zero_le 8) (by rw [List.length_append, List.length_singleton]; omega)] at hdecode
    cases hdecode
  rw [decode_bytes_concat hshort] at hdecode
  obtain rfl := Except.ok.inj hdecode
  obtain ⟨hclear, hset, hmasked, hsigns⟩ := sign_of_byte last
  have hwidth : 0 < 256 ^ body.length := by positivity
  by_cases hrest : last &&& 0x7f ≠ 0
  · -- The last byte has more than a sign.
    have hpos : 0 < (last &&& 0x7f).toNat := Nat.pos_of_ne_zero fun hzero => hrest (UInt8.toNat_inj.mp hzero)
    have hvalue : (signed body last).natAbs = littleEndian.ofBytes (body ++ [last &&& 0x7f]) := by
      unfold signed
      rw [littleEndian.ofBytes_concat]
      split
      · next hsign =>
        rw [(hset hsign).2]
        omega
      · next hsign =>
        rw [(hclear (not_not.mp hsign)).1]
        omega
    have hmagnitude : magnitude 8 (signed body last).natAbs = body ++ [last &&& 0x7f] := by
      rw [hvalue]
      exact magnitude_ofBytes hrest hshort
    have hne : signed body last ≠ 0 := by
      intro hzero
      rw [hzero, littleEndian.ofBytes_concat] at hvalue
      have hprod := Nat.mul_pos hpos hwidth
      simp only [Int.natAbs_zero] at hvalue
      omega
    rw [encode_i64_of_magnitude hne hmagnitude, if_neg (not_not.mpr hmasked)]
    congr 2
    by_cases hsign : last &&& 0x80 ≠ 0
    · have hneg : signed body last < 0 := by
        unfold signed at hne ⊢
        rw [if_pos hsign] at hne ⊢
        omega
      rw [if_pos hneg, (hset hsign).1]
    · have hneg : ¬ signed body last < 0 := by
        unfold signed
        rw [if_neg hsign]
        omega
      rw [if_neg hneg, (hclear (not_not.mp hsign)).1]
  · -- The last byte is a sign alone, needed as the byte before it has its leading bit set.
    obtain ⟨init, second, rfl, hsecond⟩ := ((minimally_encoded_concat _ _).mp (hminimal rfl)).resolve_left hrest
    have hsecond_pos : 0 < second.toNat := by
      have hle := (sign_bit_iff second).mp hsecond
      omega
    have hpos : 0 < littleEndian.ofBytes (init ++ [second]) := by
      rw [littleEndian.ofBytes_concat]
      exact Nat.add_pos_right _ (Nat.mul_pos hsecond_pos (by positivity))
    have hmagnitude : magnitude 8 (littleEndian.ofBytes (init ++ [second])) = init ++ [second] := by
      refine magnitude_ofBytes (fun hzero => ?_) (by rw [List.length_append] at hshort; omega)
      rw [hzero] at hsecond_pos
      exact absurd hsecond_pos (by decide)
    obtain rfl | rfl := hsigns (not_not.mp hrest)
    · have hvalue : signed (init ++ [second]) 0 = littleEndian.ofBytes (init ++ [second]) := by
        rw [signed, if_neg (by decide), show (0 : UInt8).toNat = 0 from rfl, Nat.zero_mul, Nat.add_zero]
      rw [hvalue, encode_i64_of_magnitude (by omega) (by rw [Int.natAbs_natCast]; exact hmagnitude), if_pos hsecond,
        if_neg (by omega)]
    · have hvalue : signed (init ++ [second]) 0x80 = -(littleEndian.ofBytes (init ++ [second]) : Int) := by
        rw [signed, if_pos (by decide), show (0x80 : UInt8).toNat - 128 = 0 from rfl, Nat.zero_mul, Nat.add_zero]
      rw [hvalue, encode_i64_of_magnitude (by omega) (by rw [Int.natAbs_neg, Int.natAbs_natCast]; exact hmagnitude),
        if_pos hsecond, if_pos (by omega)]

/-- The bytes of script numbers: every number within reach is read back from its own, and nothing else is read as
    minimal. -/
theorem numbers_round_trip :
    (∀ n : Int, -(2 ^ 63) < n → n < 2 ^ 63 → ∀ (require_minimal : Bool) (k : Nat), (encode_i64 n).length ≤ k →
      from_bytes (encode_i64 n) require_minimal k = .ok n) ∧
    (∀ (vch : List UInt8) (k : Nat) (n : Int), from_bytes vch true k = .ok n → encode_i64 n = vch) :=
  ⟨fun _ hlow hhigh require_minimal _ hlength => from_bytes_encode_i64 hlow hhigh require_minimal hlength,
    fun _ _ _ hread => encode_i64_from_bytes hread⟩

/-- The smallest number that needs a byte for its sign. -/
theorem numbers_round_trip_128 : encode_i64 (-128) = [0x80, 0x80] ∧ from_bytes [0x80, 0x80] true 4 = .ok (-128) :=
  have hencode : encode_i64 (-128) = [0x80, 0x80] := by decide +kernel
  ⟨hencode, hencode ▸ numbers_round_trip.1 (-128) (by decide) (by decide) true 4 (by rw [hencode]; decide)⟩

end ScriptNum

end qubitcoin.interpreter
