import Qubitcoin.Consensus.Transaction
import Qubitcoin.Lib.Codec

/-! `qubitcoin-serialize`: decoding of integers, compact sizes, vectors and
    variable-length integers. -/

open qubitcoin primitives script transaction codec

namespace qubitcoin.serialize

/-- Any object longer than this is rejected. -/
def MAX_SIZE : Nat := 0x02000000

/-- What the modelled functions report. A reader that runs out of data reports an I/O
    error. -/
inductive Error where
  | Io (message : String)
  | NonCanonicalCompactSize
  | CompactSizeTooLarge (size : Nat)
  | VarIntTooLarge
  | InvalidEncoding (message : String)
  | OversizedVector (size : Nat)
  deriving DecidableEq, Repr

abbrev Decoder (A : Type) := codec.Decoder UInt8 Error A

/-- `Read::read_exact` into a buffer of a size. -/
def read_exact (n : Nat) : Decoder (List UInt8) := codec.read_exact (.Io "failed to fill whole buffer") n

/-- `from_le_bytes` of the next bytes. -/
def decode_le (width : Nat) : Decoder Nat := do
  let buf ← read_exact width
  pure (littleEndian.ofBytes buf)

def decode_u8 : Decoder UInt8 := do
  let n ← decode_le 1
  pure (UInt8.ofNat n)

def decode_u32 : Decoder UInt32 := do
  let n ← decode_le 4
  pure (UInt32.ofNat n)

/-- The value of an `i64` from its 64 bits. -/
def as_i64 (n : Nat) : Int := (BitVec.ofNat 64 n).toInt

def decode_i64 : Decoder Int := do
  let n ← decode_le 8
  pure (as_i64 n)

def decode_uint256 : Decoder Uint256 := do
  let buf ← read_exact 32
  pure (Uint256.from_bytes buf)

/-- The form of a compact size after its marker: a width, and the least value that has
    no shorter form. -/
def read_compact_size_form (width least : Nat) : Decoder Nat := do
  let val ← decode_le width
  guard_or (decide (least ≤ val)) .NonCanonicalCompactSize
  pure val

/-- The size that a first byte announces. -/
def read_compact_size_after (ch_size : UInt8) : Decoder Nat :=
  if ch_size < 253 then pure ch_size.toNat
  else if ch_size = 253 then read_compact_size_form 2 253
  else if ch_size = 254 then read_compact_size_form 4 0x10000
  else read_compact_size_form 8 0x100000000

def read_compact_size_with_range (range_check : Bool) : Decoder Nat := do
  let ch_size ← decode_u8
  let size ← read_compact_size_after ch_size
  guard_or (!(range_check && decide (MAX_SIZE < size))) (.CompactSizeTooLarge size)
  pure size

def read_compact_size : Decoder Nat := read_compact_size_with_range true

/-- `Vec<u8>::decode`. -/
def decode_bytes : Decoder (List UInt8) := do
  let len ← read_compact_size
  guard_or (!decide (MAX_SIZE < len)) (.OversizedVector len)
  read_exact len

def encode_bytes (bytes : List UInt8) : List UInt8 := write_compact_size bytes.length ++ bytes

def decode_vec {A : Type} (decode : Decoder A) : Decoder (List A) := do
  let len ← read_compact_size
  guard_or (!decide (MAX_SIZE < len)) (.OversizedVector len)
  decode_items decode len

def encode_vec {A : Type} (encode : A → List UInt8) (vec : List A) : List UInt8 :=
  write_compact_size vec.length ++ vec.flatMap encode

/-- The digits of a number from the last one on: all but the last have their high bit
    set. The number falls with every turn, and a `u64` has at most ten digits. -/
def write_varint_digits : Nat → Bool → Nat → List UInt8
  | 0, _, _ => []
  | fuel + 1, continued, n =>
    let digit := UInt8.ofNat (n % 128) ||| (if continued then 0x80 else 0x00)
    if n ≤ 0x7f then [digit] else write_varint_digits fuel true (n / 128 - 1) ++ [digit]

def write_varint (n : Nat) : List UInt8 := write_varint_digits 10 false n

/-- The loop of `read_varint`; every turn takes one byte. -/
def read_varint_loop : Nat → List UInt8 → Except Error (Nat × List UInt8)
  | _, [] => .error (.Io "failed to fill whole buffer")
  | n, ch :: rest =>
    if (2 ^ 64 - 1) >>> 7 < n then .error .VarIntTooLarge
    else
      let n := n * 128 + ch.toNat % 128
      if ch &&& 0x80 ≠ 0 then
        if n = 2 ^ 64 - 1 then .error .VarIntTooLarge else read_varint_loop (n + 1) rest
      else .ok (n, rest)

def read_varint : Decoder Nat := fun input => read_varint_loop 0 input

theorem exact_decode_le (width : Nat) :
    Exact (decode_le width) (littleEndian.toBytes width) fun n => n < 256 ^ width := by
  refine (exact_read_exact _ width).map ?_ ?_
  · rintro bytes rfl
    exact ⟨littleEndian.toBytes_ofBytes bytes, littleEndian.ofBytes_lt bytes⟩
  · intro n hlt
    exact ⟨littleEndian.ofBytes_toBytes hlt, littleEndian.length_toBytes width n⟩

theorem exact_decode_u8 : Exact decode_u8 (fun b => [b]) fun _ => True := by
  have hencode : (fun b : UInt8 => [b]) = fun b : UInt8 => littleEndian.toBytes 1 b.toNat := by
    funext b
    simp [littleEndian.toBytes]
  rw [hencode]
  refine (exact_decode_le 1).map ?_ ?_
  · intro n hlt
    exact ⟨by rw [UInt8.toNat_ofNat']; omega, trivial⟩
  · intro b _
    exact ⟨UInt8.ofNat_toNat, b.toNat_lt⟩

theorem exact_decode_u32 : Exact decode_u32 encode_u32 fun _ => True := by
  refine (exact_decode_le 4).map ?_ ?_
  · intro n hlt
    exact ⟨by rw [UInt32.toNat_ofNat']; omega, trivial⟩
  · intro x _
    exact ⟨UInt32.ofNat_toNat, x.toNat_lt⟩

theorem exact_decode_i64 : Exact decode_i64 encode_i64 IntType.i64.fits := by
  refine (exact_decode_le 8).map ?_ ?_
  · intro n hlt
    have hint : as_i64 n = Int.bmod n (2 ^ 64) := by
      rw [as_i64, BitVec.toInt_eq_toNat_bmod, BitVec.toNat_ofNat, Nat.mod_eq_of_lt (by omega)]
    rw [hint, Int.bmod_def]
    refine ⟨by omega, ?_, ?_⟩ <;> omega
  · rintro x ⟨hlow, hhigh⟩
    refine ⟨?_, by omega⟩
    rw [as_i64, BitVec.toInt_eq_toNat_bmod, BitVec.toNat_ofNat, Int.bmod_def]
    omega

theorem exact_decode_uint256 : Exact decode_uint256 Uint256.data fun _ => True := by
  refine (exact_read_exact _ 32).map ?_ ?_
  · intro bytes hlength
    refine ⟨?_, trivial⟩
    have hlt := littleEndian.ofBytes_lt bytes
    have hback := littleEndian.toBytes_ofBytes bytes
    rw [hlength] at hlt hback
    have hsmall : littleEndian.ofBytes bytes < 2 ^ 256 := Nat.lt_of_lt_of_eq hlt (by decide)
    unfold Uint256.from_bytes
    rw [BitVec.toNat_ofNat, Nat.mod_eq_of_lt hsmall]
    exact hback
  · intro x _
    exact ⟨Uint256.from_bytes_data x, littleEndian.length_toBytes 32 _⟩

theorem exact_read_compact_size_form (width least : Nat) :
    Exact (read_compact_size_form width least) (littleEndian.toBytes width)
      fun n => least ≤ n ∧ n < 256 ^ width where
  run_eq_ok {input n rest} := by
    unfold read_compact_size_form
    simp only [run_bind_eq_ok, run_pure_eq_ok, run_guard_or_eq_ok, (exact_decode_le width).run_eq_ok,
      decide_eq_true_eq]
    constructor
    · rintro ⟨val, _, ⟨hlt, rfl⟩, _, _, ⟨hle, rfl⟩, rfl, rfl⟩
      exact ⟨⟨hle, hlt⟩, rfl⟩
    · rintro ⟨⟨hle, hlt⟩, rfl⟩
      exact ⟨n, rest, ⟨hlt, rfl⟩, (), rest, ⟨hle, rfl⟩, rfl, rfl⟩

theorem read_compact_size_forms {input : List UInt8} {n : Nat} {rest : List UInt8} :
    (∃ ch_size mid, decode_u8.run input = .ok (ch_size, mid) ∧
      (read_compact_size_after ch_size).run mid = .ok (n, rest)) ↔
      n < 2 ^ 64 ∧ input = write_compact_size n ++ rest := by
  unfold read_compact_size_after
  constructor
  · rintro ⟨ch_size, mid, hbyte, hform⟩
    obtain ⟨_, rfl⟩ := exact_decode_u8.run_eq_ok.mp hbyte
    unfold write_compact_size
    split at hform
    · next hsmall =>
      obtain ⟨rfl, rfl⟩ := run_pure_eq_ok.mp hform
      have hlt : ch_size.toNat < 253 := hsmall
      rw [if_pos hlt, UInt8.ofNat_toNat]
      exact ⟨by omega, rfl⟩
    · next hbig =>
      have hge : 253 ≤ ch_size.toNat := by
        have := UInt8.not_lt.mp hbig
        exact this
      split at hform
      · next hmark =>
        obtain ⟨⟨hle, hlt⟩, rfl⟩ := (exact_read_compact_size_form 2 253).run_eq_ok.mp hform
        rw [if_neg (by omega), if_pos (by omega), hmark]
        exact ⟨by omega, rfl⟩
      · next hnot_first =>
        split at hform
        · next hmark =>
          obtain ⟨⟨hle, hlt⟩, rfl⟩ := (exact_read_compact_size_form 4 0x10000).run_eq_ok.mp hform
          rw [if_neg (by omega), if_neg (by omega), if_pos (by omega), hmark]
          exact ⟨by omega, rfl⟩
        · next hnot_second =>
          obtain ⟨⟨hle, hlt⟩, rfl⟩ := (exact_read_compact_size_form 8 0x100000000).run_eq_ok.mp hform
          have hmark : ch_size = 255 := by
            have hfirst : ch_size.toNat ≠ 253 := fun heq => hnot_first (UInt8.toNat_inj.mp heq)
            have hsecond : ch_size.toNat ≠ 254 := fun heq => hnot_second (UInt8.toNat_inj.mp heq)
            have := ch_size.toNat_lt
            apply UInt8.toNat_inj.mp
            change ch_size.toNat = 255
            omega
          rw [if_neg (by omega), if_neg (by omega), if_neg (by omega), hmark]
          exact ⟨by omega, rfl⟩
  · rintro ⟨hlt, rfl⟩
    unfold write_compact_size
    split
    · next hsmall =>
      have hbyte : (UInt8.ofNat n).toNat = n := by
        rw [UInt8.toNat_ofNat']
        omega
      have hless : UInt8.ofNat n < 253 := by
        change (UInt8.ofNat n).toNat < 253
        omega
      refine ⟨UInt8.ofNat n, rest, exact_decode_u8.run_eq_ok.mpr ⟨trivial, rfl⟩, ?_⟩
      rw [if_pos hless, hbyte]
      exact run_pure_eq_ok.mpr ⟨rfl, rfl⟩
    · split
      · refine ⟨253, littleEndian.toBytes 2 n ++ rest, exact_decode_u8.run_eq_ok.mpr ⟨trivial, rfl⟩, ?_⟩
        exact (exact_read_compact_size_form 2 253).run_eq_ok.mpr ⟨by omega, rfl⟩
      · split
        · refine ⟨254, littleEndian.toBytes 4 n ++ rest, exact_decode_u8.run_eq_ok.mpr ⟨trivial, rfl⟩, ?_⟩
          exact (exact_read_compact_size_form 4 0x10000).run_eq_ok.mpr ⟨by omega, rfl⟩
        · refine ⟨255, littleEndian.toBytes 8 n ++ rest, exact_decode_u8.run_eq_ok.mpr ⟨trivial, rfl⟩, ?_⟩
          exact (exact_read_compact_size_form 8 0x100000000).run_eq_ok.mpr ⟨by omega, rfl⟩

theorem exact_read_compact_size : Exact read_compact_size write_compact_size fun n => n ≤ MAX_SIZE where
  run_eq_ok {input n rest} := by
    unfold read_compact_size read_compact_size_with_range
    simp only [run_bind_eq_ok, run_pure_eq_ok, run_guard_or_eq_ok]
    constructor
    · rintro ⟨ch_size, mid, hbyte, size, _, hform, _, _, ⟨hrange, rfl⟩, rfl, rfl⟩
      obtain ⟨_, hinput⟩ := read_compact_size_forms.mp ⟨ch_size, mid, hbyte, hform⟩
      exact ⟨by simpa using hrange, hinput⟩
    · rintro ⟨hle, hinput⟩
      have hlt : n < 2 ^ 64 := by
        unfold MAX_SIZE at hle
        omega
      obtain ⟨ch_size, mid, hbyte, hform⟩ := read_compact_size_forms.mpr ⟨hlt, hinput⟩
      exact ⟨ch_size, mid, hbyte, n, rest, hform, (), rest, ⟨by simpa using hle, rfl⟩, rfl, rfl⟩

theorem exact_decode_bytes : Exact decode_bytes encode_bytes fun bytes => bytes.length ≤ MAX_SIZE where
  run_eq_ok {input bytes rest} := by
    unfold decode_bytes encode_bytes
    simp only [run_bind_eq_ok, run_guard_or_eq_ok, exact_read_compact_size.run_eq_ok]
    constructor
    · rintro ⟨len, _, ⟨hle, rfl⟩, _, _, ⟨_, rfl⟩, hread⟩
      obtain ⟨rfl, rfl⟩ := (exact_read_exact _ len).run_eq_ok.mp hread
      exact ⟨hle, by simp⟩
    · rintro ⟨hle, rfl⟩
      refine ⟨bytes.length, bytes ++ rest, ⟨hle, by simp⟩, (), bytes ++ rest, ⟨by simpa using hle, rfl⟩, ?_⟩
      exact (exact_read_exact _ _).run_eq_ok.mpr ⟨rfl, rfl⟩

theorem exact_decode_vec {A : Type} {decode : Decoder A} {encode : A → List UInt8} {valid : A → Prop}
    (hexact : Exact decode encode valid) :
    Exact (decode_vec decode) (encode_vec encode) fun vec => vec.length ≤ MAX_SIZE ∧ ∀ a ∈ vec, valid a where
  run_eq_ok {input vec rest} := by
    unfold decode_vec encode_vec
    simp only [run_bind_eq_ok, run_guard_or_eq_ok, exact_read_compact_size.run_eq_ok,
      (hexact.decode_items _).run_eq_ok]
    constructor
    · rintro ⟨_, _, ⟨hle, rfl⟩, _, _, ⟨_, rfl⟩, ⟨rfl, hvalid⟩, rfl⟩
      exact ⟨⟨hle, hvalid⟩, by simp⟩
    · rintro ⟨⟨hle, hvalid⟩, rfl⟩
      exact ⟨vec.length, vec.flatMap encode ++ rest, ⟨hle, by simp⟩, (), vec.flatMap encode ++ rest,
        ⟨by simpa using hle, rfl⟩, ⟨rfl, hvalid⟩, rfl⟩

theorem continued_digit {k : Nat} (hlt : k < 128) :
    (UInt8.ofNat k ||| 0x80).toNat % 128 = k ∧ (UInt8.ofNat k ||| 0x80) &&& 0x80 ≠ 0 := by
  have hall : ∀ k : Fin 128, (UInt8.ofNat k.val ||| 0x80).toNat % 128 = k.val ∧
      (UInt8.ofNat k.val ||| 0x80) &&& 0x80 ≠ 0 := by decide
  exact hall ⟨k, hlt⟩

theorem last_digit {k : Nat} (hlt : k < 128) :
    (UInt8.ofNat k ||| 0x00).toNat % 128 = k ∧ (UInt8.ofNat k ||| 0x00) &&& 0x80 = 0 := by
  have hall : ∀ k : Fin 128, (UInt8.ofNat k.val ||| 0x00).toNat % 128 = k.val ∧
      (UInt8.ofNat k.val ||| 0x00) &&& 0x80 = 0 := by decide
  exact hall ⟨k, hlt⟩

theorem read_continued_digits {fuel : Nat} : ∀ {m : Nat} {rest : List UInt8}, m < 2 ^ (7 * (fuel + 1)) →
    m < (2 ^ 64 - 1) / 128 →
    read_varint_loop 0 (write_varint_digits (fuel + 1) true m ++ rest) = read_varint_loop (m + 1) rest := by
  induction fuel with
  | zero =>
    intro m rest hfuel hbound
    obtain ⟨hvalue, hflag⟩ := continued_digit (show m < 128 by omega)
    have hsmall : m % 128 = m := Nat.mod_eq_of_lt (by omega)
    unfold write_varint_digits
    rw [if_pos (by omega), if_pos rfl, hsmall]
    simp only [List.cons_append, List.nil_append, read_varint_loop]
    rw [hvalue, if_neg (by omega), if_pos hflag, if_neg (by omega), Nat.zero_mul, Nat.zero_add]
  | succ fuel ih =>
    intro m rest hfuel hbound
    obtain ⟨hvalue, hflag⟩ := continued_digit (show m % 128 < 128 by omega)
    unfold write_varint_digits
    by_cases hsmall : m ≤ 0x7f
    · have hmod : m % 128 = m := Nat.mod_eq_of_lt (by omega)
      rw [if_pos hsmall, if_pos rfl]
      simp only [List.cons_append, List.nil_append, read_varint_loop]
      rw [hvalue, hmod, if_neg (by omega), if_pos (hmod ▸ hflag), if_neg (by omega), Nat.zero_mul, Nat.zero_add]
    · have hpow : 2 ^ (7 * (fuel + 1 + 1)) = 128 * 2 ^ (7 * (fuel + 1)) := by
        rw [show 7 * (fuel + 1 + 1) = 7 + 7 * (fuel + 1) by ring, pow_add]
        norm_num
      rw [if_neg hsmall, List.append_assoc, ih (by omega) (by omega), if_pos rfl]
      have hinitial : m / 128 - 1 + 1 = m / 128 := by omega
      have hnumber : m / 128 * 128 + m % 128 = m := by omega
      have hshift : (2 ^ 64 - 1) >>> 7 = (2 ^ 64 - 1) / 128 := rfl
      simp only [List.cons_append, List.nil_append, read_varint_loop]
      rw [hinitial, hvalue, hshift, hnumber, if_neg (by omega), if_pos hflag, if_neg (by omega)]

theorem read_write_varint {n : Nat} (hlt : n < 2 ^ 64) (rest : List UInt8) :
    read_varint.run (write_varint n ++ rest) = .ok (n, rest) := by
  obtain ⟨hvalue, hflag⟩ := last_digit (show n % 128 < 128 by omega)
  have hshift : (2 ^ 64 - 1) >>> 7 = (2 ^ 64 - 1) / 128 := rfl
  change read_varint_loop 0 (write_varint n ++ rest) = .ok (n, rest)
  unfold write_varint write_varint_digits
  by_cases hsmall : n ≤ 0x7f
  · have hmod : n % 128 = n := Nat.mod_eq_of_lt (by omega)
    rw [if_pos hsmall, if_neg (by simp)]
    simp only [List.cons_append, List.nil_append, read_varint_loop]
    rw [hvalue, hflag, hmod, if_neg (by omega), if_neg (by simp), Nat.zero_mul, Nat.zero_add]
  · have hinitial : n / 128 - 1 + 1 = n / 128 := by omega
    have hnumber : n / 128 * 128 + n % 128 = n := by omega
    rw [if_neg hsmall, List.append_assoc, read_continued_digits (by omega) (by omega), if_neg (by simp)]
    simp only [List.cons_append, List.nil_append, read_varint_loop]
    rw [hinitial, hvalue, hflag, hshift, hnumber, if_neg (by omega), if_neg (by simp)]

/-- The number that the bytes spell, without a bound, and the bytes after it. -/
def varint_value : Nat → List UInt8 → Option (Nat × List UInt8)
  | _, [] => none
  | n, ch :: rest =>
    let n := n * 128 + ch.toNat % 128
    if ch &&& 0x80 ≠ 0 then varint_value (n + 1) rest else some (n, rest)

theorem varint_value_ge {input : List UInt8} : ∀ {acc v : Nat} {rest : List UInt8},
    varint_value acc input = some (v, rest) → acc * 128 ≤ v := by
  induction input with
  | nil =>
    intro acc v rest hvalue
    cases hvalue
  | cons ch tail ih =>
    intro acc v rest hvalue
    unfold varint_value at hvalue
    dsimp only at hvalue
    split at hvalue
    · have hle := ih hvalue
      omega
    · cases hvalue
      omega

theorem read_varint_loop_eq {input : List UInt8} : ∀ {acc v : Nat} {rest : List UInt8},
    varint_value acc input = some (v, rest) →
      read_varint_loop acc input = if v < 2 ^ 64 then .ok (v, rest) else .error .VarIntTooLarge := by
  induction input with
  | nil =>
    intro acc v rest hvalue
    cases hvalue
  | cons ch tail ih =>
    intro acc v rest hvalue
    have hle := varint_value_ge hvalue
    have hshift : (2 ^ 64 - 1) >>> 7 = 2 ^ 57 - 1 := rfl
    unfold varint_value at hvalue
    unfold read_varint_loop
    rw [hshift]
    by_cases hlarge : 2 ^ 57 - 1 < acc
    · rw [if_pos hlarge, if_neg (by omega)]
    rw [if_neg hlarge]
    dsimp only at hvalue ⊢
    by_cases hflag : ch &&& 0x80 ≠ 0
    · rw [if_pos hflag] at hvalue ⊢
      split
      · -- The increment would leave `u64`, and another digit only makes the number larger.
        have hnext := varint_value_ge hvalue
        rw [if_neg (by omega)]
      · exact ih hvalue
    · rw [if_neg hflag] at hvalue ⊢
      cases hvalue
      rw [if_pos (by omega)]

theorem continued_of_flag {ch : UInt8} (hflag : ch &&& 0x80 ≠ 0) : UInt8.ofNat (ch.toNat % 128) ||| 0x80 = ch := by
  have hall : ∀ k : Fin 256, UInt8.ofNat k.val &&& 0x80 ≠ 0 → UInt8.ofNat (k.val % 128) ||| 0x80 = UInt8.ofNat k.val := by
    decide +kernel
  have hch := hall ⟨ch.toNat, ch.toNat_lt⟩
  rw [UInt8.ofNat_toNat] at hch
  exact hch hflag

theorem last_of_flag {ch : UInt8} (hflag : ch &&& 0x80 = 0) : UInt8.ofNat (ch.toNat % 128) ||| 0x00 = ch := by
  have hall : ∀ k : Fin 256, UInt8.ofNat k.val &&& 0x80 = 0 → UInt8.ofNat (k.val % 128) ||| 0x00 = UInt8.ofNat k.val := by
    decide +kernel
  have hch := hall ⟨ch.toNat, ch.toNat_lt⟩
  rw [UInt8.ofNat_toNat] at hch
  exact hch hflag

/-- The digits that are written before those of a number that is read so far. -/
def digits_before (fuel acc : Nat) : List UInt8 := if acc = 0 then [] else write_varint_digits fuel true (acc - 1)

theorem write_varint_digits_step {fuel acc d : Nat} {continued : Bool} (hd : d < 128) :
    write_varint_digits (fuel + 1) continued (acc * 128 + d) =
      digits_before fuel acc ++ [UInt8.ofNat d ||| (if continued then 0x80 else 0x00)] := by
  have hmod : (acc * 128 + d) % 128 = d := by omega
  have hdiv : (acc * 128 + d) / 128 = acc := by omega
  unfold write_varint_digits digits_before
  rw [hmod, hdiv]
  dsimp only
  by_cases hzero : acc = 0
  · rw [if_pos (by omega), if_pos hzero]
    rfl
  · rw [if_neg (by omega), if_neg hzero]

theorem read_varint_loop_spec {input : List UInt8} : ∀ {acc n : Nat} {rest : List UInt8},
    read_varint_loop acc input = .ok (n, rest) → n < 2 ^ 64 ∧ ∃ init last, input = init ++ last :: rest ∧
      acc * 128 ^ init.length < 2 ^ 57 ∧ (init ≠ [] → (acc * 128 + 1) * 128 ^ (init.length - 1) < 2 ^ 57) ∧
        ∀ fuel, write_varint_digits (fuel + (init.length + 1)) false n = digits_before fuel acc ++ (init ++ [last]) := by
  induction input with
  | nil =>
    intro acc n rest hread
    cases hread
  | cons ch tail ih =>
    intro acc n rest hread
    have hshift : (2 ^ 64 - 1) >>> 7 = 2 ^ 57 - 1 := rfl
    have hdigit : ch.toNat % 128 < 128 := by omega
    unfold read_varint_loop at hread
    rw [hshift] at hread
    by_cases hlarge : 2 ^ 57 - 1 < acc
    · rw [if_pos hlarge] at hread
      cases hread
    rw [if_neg hlarge] at hread
    dsimp only at hread
    by_cases hflag : ch &&& 0x80 ≠ 0
    · rw [if_pos hflag] at hread
      split at hread
      · cases hread
      obtain ⟨hn, init, last, rfl, hbound, _, hdigits⟩ := ih hread
      refine ⟨hn, ch :: init, last, rfl, ?_, fun _ => ?_, fun fuel => ?_⟩
      · calc acc * 128 ^ (ch :: init).length = acc * 128 * 128 ^ init.length := by
              rw [List.length_cons, Nat.pow_succ']; ring
          _ ≤ (acc * 128 + ch.toNat % 128 + 1) * 128 ^ init.length := Nat.mul_le_mul_right _ (by omega)
          _ < 2 ^ 57 := hbound
      · exact (Nat.mul_le_mul_right _ (by omega)).trans_lt hbound
      · have hbefore : digits_before (fuel + 1) (acc * 128 + ch.toNat % 128 + 1) = digits_before fuel acc ++ [ch] := by
          rw [digits_before, if_neg (by omega), Nat.add_sub_cancel, write_varint_digits_step hdigit, if_pos rfl,
            continued_of_flag hflag]
        have hnext := hdigits (fuel + 1)
        rw [hbefore, List.append_assoc] at hnext
        rw [List.cons_append, List.length_cons, show fuel + (init.length + 1 + 1) = fuel + 1 + (init.length + 1) by omega]
        exact hnext
    · rw [if_neg hflag] at hread
      cases hread
      refine ⟨by omega, [], ch, rfl, by rw [List.length_nil]; omega, (absurd rfl ·), fun fuel => ?_⟩
      rw [List.length_nil, write_varint_digits_step hdigit, if_neg Bool.false_ne_true,
        last_of_flag (not_not.mp hflag), List.nil_append]

theorem write_read_varint {input rest : List UInt8} {n : Nat} (hread : read_varint.run input = .ok (n, rest)) :
    n < 2 ^ 64 ∧ input = write_varint n ++ rest := by
  change read_varint_loop 0 input = .ok (n, rest) at hread
  obtain ⟨hn, init, last, rfl, _, hbound, hdigits⟩ := read_varint_loop_spec hread
  -- The digits before the last one leave room for it, so there are nine of them at most.
  have hlength : init.length ≤ 9 := by
    by_contra hlong
    have hne : init ≠ [] := by
      rintro rfl
      exact hlong (Nat.zero_le _)
    have hlt := hbound hne
    rw [Nat.zero_mul, Nat.zero_add, Nat.one_mul] at hlt
    have hge : 128 ^ 9 ≤ 128 ^ (init.length - 1) := Nat.pow_le_pow_right (by decide) (by omega)
    omega
  refine ⟨hn, ?_⟩
  have hten : 9 - init.length + (init.length + 1) = 10 := by omega
  have hwritten := hdigits (9 - init.length)
  rw [hten] at hwritten
  rw [write_varint, hwritten, digits_before, if_pos rfl]
  simp

/-- Numbers and the bytes that are read as them determine each other, and bytes that spell a number
    beyond `u64` are refused. -/
theorem varint_bijection :
    (∀ n < 2 ^ 64, ∀ rest, read_varint.run (write_varint n ++ rest) = .ok (n, rest)) ∧
      (∀ input n rest, read_varint.run input = .ok (n, rest) → n < 2 ^ 64 ∧ input = write_varint n ++ rest) ∧
      ∀ input n rest, varint_value 0 input = some (n, rest) → 2 ^ 64 ≤ n →
        read_varint.run input = .error .VarIntTooLarge := by
  refine ⟨fun n hlt rest => read_write_varint hlt rest, fun input n rest hread => write_read_varint hread,
    fun input n rest hvalue hlarge => ?_⟩
  exact (read_varint_loop_eq hvalue).trans (if_neg (by omega))

/-- The largest `u64`, and what its digits would spell with one more. -/
theorem varint_bijection_max :
    read_varint.run (write_varint (2 ^ 64 - 1) ++ [0]) = .ok (2 ^ 64 - 1, [0]) ∧
      read_varint.run [0x80, 0xfe, 0xfe, 0xfe, 0xfe, 0xfe, 0xfe, 0xfe, 0xff, 0x00] = .error .VarIntTooLarge :=
  ⟨varint_bijection.1 _ (by decide) _, varint_bijection.2.2 _ (2 ^ 64) [] (by decide +kernel) le_rfl⟩

end qubitcoin.serialize
