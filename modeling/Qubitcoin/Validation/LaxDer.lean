import Qubitcoin.Script.SoftFork
import Qubitcoin.Validation.ScriptCheck

/-! The lax parser of signatures, against one that reads lengths as exact numbers. -/

open qubitcoin interpreter.vm sign

namespace qubitcoin.script_check

/-- The length at a position, as the number that its bytes are, and the position after it. -/
def exact_length (input : List UInt8) (pos : Nat) : Option (Nat × Nat) :=
  let first := input.getD pos 0
  if first &&& 0x80 ≠ 0 then
    let n_len_bytes := (first &&& 0x7f).toNat
    let pos := pos + 1
    if pos + n_len_bytes > input.length then none
    else some (der.value ((input.drop pos).take n_len_bytes), pos + n_len_bytes)
  else some (first.toNat, pos + 1)

/-- Where an integer is tagged at a position: its length and where its contents start. -/
def exact_field (input : List UInt8) (pos : Nat) : Option (Nat × Nat) :=
  if pos ≥ input.length then none
  else if input.getD pos 0 ≠ 0x02 then none
  else if pos + 1 ≥ input.length then none
  else exact_length input (pos + 1)

/-- An integer at a position: as many bytes as its length says, and the position after them. -/
def exact_integer (input : List UInt8) (pos : Nat) : Option (List UInt8 × Nat) :=
  match exact_field input pos with
  | none => none
  | some (len, start) => if start + len > input.length then none else some ((input.drop start).take len, start + len)

def exact_signature (secp : Secp256k1) (input : List UInt8) : Option (Nat × Nat) :=
  if input.length < 2 then none
  else if input.getD 0 0 ≠ 0x30 then none
  else
    match exact_integer input (skip_sequence_length input) with
    | none => none
    | some (r_bytes, pos) =>
      match exact_integer input pos with
      | none => none
      | some (s_bytes, _) =>
        match copy_integer_to_32 r_bytes, copy_integer_to_32 s_bytes with
        | some r, some s => secp.from_compact (r ++ s)
        | _, _ => none

/-- The contents of the integer at a position would end beyond the input, but modulo the size of
    the machine type they end within it. -/
def Wraps (input : List UInt8) (pos : Nat) : Prop :=
  ∃ len start, exact_field input pos = some (len, start) ∧ input.length < start + len ∧
    (start + len) % 2 ^ 64 ≤ input.length

variable {input : List UInt8} {pos : Nat}

theorem foldl_length_mod (bytes : List UInt8) :
    bytes.foldl (fun len byte => (len * 256 + byte.toNat) % 2 ^ 64) 0 = der.value bytes % 2 ^ 64 := by
  induction bytes using List.reverseRecOn with
  | nil => rfl
  | append_singleton bytes last ih =>
    have hvalue : der.value (bytes ++ [last]) = last.toNat + 256 * der.value bytes := by
      unfold der.value
      rw [List.reverse_append, List.reverse_singleton, List.singleton_append, littleEndian.ofBytes]
    rw [List.foldl_append, List.foldl_cons, List.foldl_nil, ih, hvalue]
    omega

theorem parse_length_lax_eq : parse_length_lax input pos =
    (exact_length input pos).map fun found => (found.1 % 2 ^ 64, found.2) := by
  unfold parse_length_lax exact_length
  dsimp only
  split
  · split
    · rfl
    · rw [foldl_length_mod]
      rfl
  · rw [Option.map_some, Nat.mod_eq_of_lt ((UInt8.toNat_lt _).trans (by decide))]

theorem exact_field_start_le {len start : Nat} (hfield : exact_field input pos = some (len, start)) :
    start ≤ input.length := by
  unfold exact_field at hfield
  split at hfield
  · cases hfield
  · split at hfield
    · cases hfield
    · split at hfield
      · cases hfield
      · next hinside =>
        unfold exact_length at hfield
        dsimp only at hfield
        split at hfield
        · split at hfield
          · cases hfield
          · next hle =>
            cases hfield
            exact Nat.not_lt.mp hle
        · cases hfield
          omega

theorem parse_der_integer_lax_eq : parse_der_integer_lax input pos =
    match exact_field input pos with
    | none => .ok none
    | some (len, start) =>
      if start + len % 2 ^ 64 ≥ 2 ^ 64 then .error (.overflow .usize)
      else if start + len % 2 ^ 64 > input.length then .ok none
      else .ok (some ((input.drop start).take (len % 2 ^ 64), start + len % 2 ^ 64)) := by
  unfold parse_der_integer_lax exact_field
  split
  · rfl
  · split
    · rfl
    · split
      · rfl
      · rw [parse_length_lax_eq]
        cases exact_length input (pos + 1) <;> rfl

theorem parse_der_integer_lax_exact (hlength : input.length < 2 ^ 64) (hexact : ¬ Wraps input pos) :
    parse_der_integer_lax input pos = .ok (exact_integer input pos) := by
  rw [parse_der_integer_lax_eq]
  unfold exact_integer
  cases hfield : exact_field input pos with
  | none => rfl
  | some found =>
    obtain ⟨len, start⟩ := found
    have hstart := exact_field_start_le hfield
    have hwraps : ¬ (input.length < start + len ∧ (start + len) % 2 ^ 64 ≤ input.length) :=
      fun h => hexact ⟨len, start, hfield, h⟩
    dsimp only
    by_cases hfits : start + len > input.length
    · rw [if_pos hfits, if_neg (by omega), if_pos (by omega)]
    · have hsame : len % 2 ^ 64 = len := Nat.mod_eq_of_lt (by omega)
      rw [hsame, if_neg (by omega), if_neg hfits, if_neg hfits]

theorem Wraps.not_rejected (hlength : input.length < 2 ^ 64) (hwraps : Wraps input pos) :
    exact_integer input pos = none ∧ parse_der_integer_lax input pos ≠ .ok none := by
  obtain ⟨len, start, hfield, hlong, hmod⟩ := hwraps
  have hstart := exact_field_start_le hfield
  rw [parse_der_integer_lax_eq]
  unfold exact_integer
  rw [hfield]
  dsimp only
  refine ⟨if_pos hlong, ?_⟩
  split
  · exact nofun
  · rw [if_neg (by omega)]
    exact nofun

/-- The positions at which the parser looks for its two integers: after the tag and the length
    of the sequence, and after the first integer. -/
def FieldAt (input : List UInt8) (pos : Nat) : Prop :=
  2 ≤ input.length ∧ input.getD 0 0 = 0x30 ∧
    (pos = skip_sequence_length input ∨ ∃ r_bytes, exact_integer input (skip_sequence_length input) = some (r_bytes, pos))

/-- The parser does not panic and returns the signature of the exact integers, if any; and an
    integer that is longer than the rest of the input is rejected. -/
def ReadsExactly (secp : Secp256k1) (input : List UInt8) : Prop :=
  ecdsa_signature_parse_der_lax secp input = .ok (exact_signature secp input) ∧
    ∀ pos, FieldAt input pos → exact_integer input pos = none → parse_der_integer_lax input pos = .ok none

/-- The parser is exact where the ends of both integers do not wrap around. -/
theorem lax_der_exact_iff (secp : Secp256k1) (input : List UInt8) (hlength : input.length < 2 ^ 64) :
    ReadsExactly secp input ↔ ∀ pos, FieldAt input pos → ¬ Wraps input pos := by
  constructor
  · rintro ⟨-, hrejects⟩ pos hpos hwraps
    obtain ⟨hnone, hread⟩ := hwraps.not_rejected hlength
    exact hread (hrejects pos hpos hnone)
  · intro hexact
    have hread : ∀ pos, FieldAt input pos → parse_der_integer_lax input pos = .ok (exact_integer input pos) :=
      fun pos hpos => parse_der_integer_lax_exact hlength (hexact pos hpos)
    refine ⟨?_, fun pos hpos hnone => by rw [hread pos hpos, hnone]⟩
    unfold ecdsa_signature_parse_der_lax exact_signature
    split
    · rfl
    · next hlong =>
      split
      · rfl
      · next htag =>
        have hstart : 2 ≤ input.length ∧ input.getD 0 0 = 0x30 := ⟨Nat.not_lt.mp hlong, not_not.mp htag⟩
        rw [hread _ ⟨hstart.1, hstart.2, .inl rfl⟩]
        cases hr : exact_integer input (skip_sequence_length input) with
        | none => rfl
        | some found =>
          obtain ⟨r_bytes, pos⟩ := found
          dsimp only [bind, Except.bind]
          rw [hread pos ⟨hstart.1, hstart.2, .inr ⟨r_bytes, hr⟩⟩]
          cases exact_integer input pos with
          | none => rfl
          | some found =>
            obtain ⟨s_bytes, last⟩ := found
            dsimp only
            cases copy_integer_to_32 r_bytes with
            | none => rfl
            | some r =>
              cases copy_integer_to_32 s_bytes with
              | none => rfl
              | some s => rfl

/-- Keys that verify nothing; a compact signature is a pair of numbers. -/
def compact_secp : Secp256k1 where
  toCrypto := zero_crypto
  public_key_from_slice _ := none
  from_compact bytes := some (der.value (bytes.take 32), der.value (bytes.drop 32))
  verify_ecdsa _ _ _ := false
  schnorr_from_slice _ := none
  verify_schnorr _ _ _ := false

/-- Two integers of one byte. -/
theorem lax_der_exact_iff_short :
    ecdsa_signature_parse_der_lax compact_secp [0x30, 0x06, 0x02, 0x01, 0x07, 0x02, 0x01, 0x05] = .ok (some (7, 5)) := by
  have hexact : ∀ pos, FieldAt [0x30, 0x06, 0x02, 0x01, 0x07, 0x02, 0x01, 0x05] pos →
      ¬ Wraps [0x30, 0x06, 0x02, 0x01, 0x07, 0x02, 0x01, 0x05] pos := by
    rintro pos ⟨-, -, rfl | ⟨r_bytes, hr⟩⟩ ⟨len, start, hfield, hlong, -⟩
    · cases hfield
      exact absurd hlong (by decide)
    · cases hr
      cases hfield
      exact absurd hlong (by decide)
  exact ((lax_der_exact_iff compact_secp _ (by decide)).mpr hexact).1

/-- A length of eight bytes `0xff` ends before its start, which aborts. One of nine bytes that is
    above `2 ^ 64` by one is read as one, and gives a signature. -/
theorem lax_der_not_exact :
    ecdsa_signature_parse_der_lax compact_secp
        [0x30, 0x02, 0x02, 0x88, 0xff, 0xff, 0xff, 0xff, 0xff, 0xff, 0xff, 0xff] = .error (.overflow .usize) ∧
      ecdsa_signature_parse_der_lax compact_secp
        [0x30, 0x02, 0x02, 0x89, 0x01, 0x00, 0x00, 0x00, 0x00, 0x00, 0x00, 0x00, 0x01, 0x07, 0x02, 0x01, 0x05] =
          .ok (some (7, 5)) ∧
      exact_signature compact_secp
        [0x30, 0x02, 0x02, 0x89, 0x01, 0x00, 0x00, 0x00, 0x00, 0x00, 0x00, 0x00, 0x01, 0x07, 0x02, 0x01, 0x05] = none := by
  decide +kernel

end qubitcoin.script_check
