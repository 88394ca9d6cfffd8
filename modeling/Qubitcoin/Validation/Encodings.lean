import Qubitcoin.Validation.ScriptCheck

/-! Signatures in the distinguished encoding: the interpreter takes them, and the checkers read
    the numbers they were made of. -/

open qubitcoin script sighash interpreter

namespace qubitcoin.interpreter.vm

theorem index_append (front : List UInt8) (byte : UInt8) (back : List UInt8) {i : Nat} (hi : i = front.length) :
    index (front ++ byte :: back) i = .ok byte := by
  rw [index, hi, List.getElem?_append_right (Nat.le_refl _), Nat.sub_self, List.getElem?_cons_zero]

theorem sign_bit_eq_zero {byte : UInt8} (hlow : byte < 0x80) : byte &&& 0x80 = 0 := by
  by_contra hne
  have hle := (sign_bit_iff byte).mp hne
  have hlt : byte.toNat < 128 := UInt8.lt_iff_toNat_lt.mp hlow
  omega

variable {n : Nat}

theorem is_valid_integer_integer (hpos : 0 < n) (hfit : n < 256 ^ 32) (front back : List UInt8) {start len : Nat}
    (hstart : start = front.length) (hlen : len = (der.integer 32 n).length) :
    is_valid_integer (front ++ (der.integer 32 n ++ back)) start len = .ok true := by
  subst hstart hlen
  obtain ⟨first, rest, -, hne, ⟨hhigh, hinteger⟩ | ⟨hlow, hinteger⟩⟩ := der.integer_cases hpos hfit
  · have hsecond : index (front ++ 0 :: first :: (rest ++ back)) (front.length + 1) = .ok first := by
      have happend := index_append (front ++ [0]) first (rest ++ back) (List.length_append).symm
      rwa [List.append_assoc] at happend
    have hsign : (first &&& 0x80 != 0) = true :=
      bne_iff_ne.mpr ((sign_bit_iff first).mpr (UInt8.le_iff_toNat_le.mp hhigh))
    rw [hinteger, List.cons_append, List.cons_append, is_valid_integer, if_neg (by rw [List.length_cons]; omega),
      index_append front 0 _ rfl]
    dsimp only [bind, Except.bind]
    rw [if_neg (by decide), if_pos ⟨by simp only [List.length_cons]; omega, rfl⟩, hsecond]
    dsimp only [Except.bind]
    rw [hsign]
    rfl
  · rw [hinteger, List.cons_append, is_valid_integer, if_neg (by rw [List.length_cons]; omega),
      index_append front first _ rfl]
    dsimp only [bind, Except.bind]
    rw [sign_bit_eq_zero hlow, if_neg (by decide), if_neg (fun h => hne h.2)]
    rfl

variable {r s : Nat}

theorem is_valid_signature_encoding_signature (hr : 0 < r) (hr' : r < 256 ^ 32) (hs : 0 < s) (hs' : s < 256 ^ 32)
    (hash_type : UInt8) : is_valid_signature_encoding (der.signature 32 (r, s) ++ [hash_type]) = .ok true := by
  have hlength := der.length_signature 32 (r, s)
  have hvalid_r := fun front back {start} => @is_valid_integer_integer r hr hr' front back start
  have hvalid_s := fun front back {start} => @is_valid_integer_integer s hs hs' front back start
  obtain ⟨hlow_r, hhigh_r⟩ := der.length_integer hr hr'
  obtain ⟨hlow_s, hhigh_s⟩ := der.length_integer hs hs'
  rw [der.signature] at hlength ⊢
  dsimp only at hlength ⊢
  generalize der.integer 32 r = r_bytes at *
  generalize der.integer 32 s = s_bytes at *
  have hvalue : ∀ {k : Nat}, k ≤ 70 → (UInt8.ofNat k).toNat = k := fun hk =>
    UInt8.toNat_ofNat_of_lt' (Nat.lt_of_le_of_lt hk (by decide))
  have htotal : (UInt8.ofNat (4 + r_bytes.length + s_bytes.length)).toNat = 4 + r_bytes.length + s_bytes.length :=
    hvalue (by omega)
  generalize UInt8.ofNat (4 + r_bytes.length + s_bytes.length) = total at *
  have hbyte_r : (UInt8.ofNat r_bytes.length).toNat = r_bytes.length := hvalue (by omega)
  have hbyte_s : (UInt8.ofNat s_bytes.length).toNat = s_bytes.length := hvalue (by omega)
  generalize UInt8.ofNat r_bytes.length = byte_r at *
  generalize UInt8.ofNat s_bytes.length = byte_s at *
  have hfull : (0x30 :: total :: 0x02 :: byte_r :: (r_bytes ++ 0x02 :: byte_s :: s_bytes) ++ [hash_type]).length =
      7 + r_bytes.length + s_bytes.length := by
    rw [List.length_append, hlength, List.length_singleton]
    omega
  -- the same bytes, apart at the first integer, at the tag of the second, and at the second
  have hfirst : 0x30 :: total :: 0x02 :: byte_r :: (r_bytes ++ 0x02 :: byte_s :: s_bytes) ++ [hash_type] =
      [0x30, total, 0x02, byte_r] ++ (r_bytes ++ (0x02 :: byte_s :: s_bytes ++ [hash_type])) := by
    simp only [List.cons_append, List.append_assoc, List.nil_append]
  have htag : [0x30, total, 0x02, byte_r] ++ (r_bytes ++ (0x02 :: byte_s :: s_bytes ++ [hash_type])) =
      ([0x30, total, 0x02, byte_r] ++ r_bytes) ++ 0x02 :: (byte_s :: s_bytes ++ [hash_type]) := by
    simp only [List.cons_append, List.nil_append]
  have hsecond : [0x30, total, 0x02, byte_r] ++ (r_bytes ++ (0x02 :: byte_s :: s_bytes ++ [hash_type])) =
      ([0x30, total, 0x02, byte_r] ++ r_bytes ++ [0x02]) ++ byte_s :: (s_bytes ++ [hash_type]) := by
    simp only [List.cons_append, List.append_assoc, List.nil_append]
  have hlast : [0x30, total, 0x02, byte_r] ++ (r_bytes ++ (0x02 :: byte_s :: s_bytes ++ [hash_type])) =
      ([0x30, total, 0x02, byte_r] ++ r_bytes ++ [0x02, byte_s]) ++ (s_bytes ++ [hash_type]) := by
    simp only [List.cons_append, List.append_assoc, List.nil_append]
  have hindex : index ([0x30, total, 0x02, byte_r] ++ (r_bytes ++ (0x02 :: byte_s :: s_bytes ++ [hash_type])))
      (5 + r_bytes.length) = .ok byte_s := by
    rw [hsecond]
    exact index_append _ _ _ (by simp only [List.length_append, List.length_cons, List.length_nil]; omega)
  have hindex_tag : index ([0x30, total, 0x02, byte_r] ++ (r_bytes ++ (0x02 :: byte_s :: s_bytes ++ [hash_type])))
      (r_bytes.length + 4) = .ok 0x02 := by
    rw [htag]
    exact index_append _ _ _ (by simp only [List.length_append, List.length_cons, List.length_nil]; omega)
  have hinteger_r := hvalid_r [0x30, total, 0x02, byte_r] (0x02 :: byte_s :: s_bytes ++ [hash_type]) rfl rfl
  have hinteger_s := hvalid_s ([0x30, total, 0x02, byte_r] ++ r_bytes ++ [0x02, byte_s]) [hash_type] rfl rfl
  have hstart : ([0x30, total, 0x02, byte_r] ++ r_bytes ++ [0x02, byte_s]).length = r_bytes.length + 6 := by
    simp only [List.length_append, List.length_cons, List.length_nil]
    omega
  rw [← hlast, hstart] at hinteger_s
  rw [hfirst] at hfull ⊢
  rw [is_valid_signature_encoding, hfull, if_neg (by omega)]
  change (if (0x30 : UInt8) ≠ 0x30 ∨ total.toNat ≠ 7 + r_bytes.length + s_bytes.length - 3 ∨
    5 + byte_r.toNat ≥ 7 + r_bytes.length + s_bytes.length then _ else _) = _
  rw [hbyte_r, if_neg (by rw [htotal]; rintro (h | h | h) <;> first | exact h rfl | omega), hindex]
  change (if r_bytes.length + byte_s.toNat + 7 ≠ 7 + r_bytes.length + s_bytes.length ∨ (0x02 : UInt8) ≠ 0x02 then _ else _) = _
  rw [hbyte_s, if_neg (by rintro (h | h) <;> first | exact h rfl | omega)]
  rw [show (4 : Nat) = [0x30, total, 0x02, byte_r].length from rfl, hinteger_r]
  change (index _ (r_bytes.length + 4) >>= _) = _
  rw [hindex_tag]
  change (is_valid_integer _ (r_bytes.length + 6) s_bytes.length >>= _) = _
  rw [hinteger_s]
  rfl

end qubitcoin.interpreter.vm

namespace qubitcoin.sign

def GROUP_ORDER : Nat := 0xfffffffffffffffffffffffffffffffebaaedce6af48a03bbfd25e8cd0364141

/-- What the crate documents about signatures: two numbers below the order of the group are read
    back from both encodings, and a low second number is left alone. -/
structure Secp256k1.Reads (secp : Secp256k1) : Prop where
  from_der : ∀ r s, 0 < r → r < GROUP_ORDER → 0 < s → s < GROUP_ORDER →
    secp.from_der (der.signature 32 (r, s)) = some (r, s)
  from_compact : ∀ r s, r < GROUP_ORDER → s < GROUP_ORDER →
    secp.from_compact (der.bytes 32 r ++ der.bytes 32 s) = some (r, s)
  normalize_s : ∀ r s, s ≤ GROUP_ORDER / 2 → secp.normalize_s (r, s) = (r, s)

/-- The numbers of a signature that signing makes. -/
structure LowS (sig : Nat × Nat) : Prop where
  r_pos : 0 < sig.1
  r_lt : sig.1 < GROUP_ORDER
  s_pos : 0 < sig.2
  s_low : sig.2 ≤ GROUP_ORDER / 2

theorem lt_of_lt_group_order {n : Nat} (h : n < GROUP_ORDER) : n < 256 ^ 32 := Nat.lt_trans h (by decide)

theorem LowS.s_lt {sig : Nat × Nat} (hsig : LowS sig) : sig.2 < GROUP_ORDER :=
  Nat.lt_of_le_of_lt hsig.s_low (by decide)

end qubitcoin.sign

namespace qubitcoin.interpreter.vm

open ScriptVerifyFlags qubitcoin.sign

variable {secp : Secp256k1} {sig : Nat × Nat}

theorem check_signature_encoding_signature (hreads : secp.Reads) (hsig : LowS sig) :
    check_signature_encoding secp.toCrypto STANDARD_SCRIPT_VERIFY_FLAGS (der.signature 32 sig ++ [0x01]) = .ok () := by
  obtain ⟨r, s⟩ := sig
  have hvalid := is_valid_signature_encoding_signature hsig.r_pos (lt_of_lt_group_order hsig.r_lt) hsig.s_pos
    (lt_of_lt_group_order hsig.s_lt) 0x01
  have hparsed := hreads.from_der r s hsig.r_pos hsig.r_lt hsig.s_pos hsig.s_lt
  have hlow : is_low_der_signature secp.toCrypto (der.signature 32 (r, s) ++ [0x01]) = .ok () := by
    rw [is_low_der_signature, hvalid, List.dropLast_concat, hparsed]
    dsimp only
    rw [hreads.normalize_s r s hsig.s_low, beq_self_eq_true]
    rfl
  have hdefined : is_defined_hashtype_signature (der.signature 32 (r, s) ++ [0x01]) = true := by
    rw [is_defined_hashtype_signature, List.getLast?_concat]
    rfl
  have hfull : (der.signature 32 (r, s) ++ [0x01]).isEmpty = false := rfl
  rw [check_signature_encoding, hfull, hvalid, hlow, hdefined]
  rfl

end qubitcoin.interpreter.vm

namespace qubitcoin.script_check

variable {n : Nat}

theorem getD_append (front : List UInt8) (byte : UInt8) (back : List UInt8) :
    (front ++ byte :: back).getD front.length 0 = byte := by
  rw [List.getD_eq_getElem?_getD, List.getElem?_append_right (Nat.le_refl _), Nat.sub_self, List.getElem?_cons_zero]
  rfl

theorem parse_length_lax_short {front back : List UInt8} {byte : UInt8} (hlow : byte < 0x80) {pos : Nat}
    (hpos : pos = front.length) : parse_length_lax (front ++ byte :: back) pos = some (byte.toNat, front.length + 1) := by
  rw [hpos, parse_length_lax, getD_append]
  dsimp only
  rw [vm.sign_bit_eq_zero hlow, if_neg (by decide)]

theorem parse_der_integer_lax_integer {front contents back : List UInt8} (hfront : front.length < 2 ^ 32)
    (hlength : contents.length < 128) {pos : Nat} (hpos : pos = front.length) :
    parse_der_integer_lax (front ++ 0x02 :: UInt8.ofNat contents.length :: (contents ++ back)) pos =
      .ok (some (contents, front.length + 2 + contents.length)) := by
  have hvalue : (UInt8.ofNat contents.length).toNat = contents.length :=
    UInt8.toNat_ofNat_of_lt' (Nat.lt_trans hlength (by decide))
  have hbyte : UInt8.ofNat contents.length < 0x80 := UInt8.lt_iff_toNat_lt.mpr (by rw [hvalue]; exact hlength)
  have hsplit : front ++ 0x02 :: UInt8.ofNat contents.length :: (contents ++ back) =
      (front ++ [0x02]) ++ UInt8.ofNat contents.length :: (contents ++ back) := by
    simp only [List.append_assoc, List.cons_append, List.nil_append]
  have hlast : front ++ 0x02 :: UInt8.ofNat contents.length :: (contents ++ back) =
      (front ++ [0x02, UInt8.ofNat contents.length]) ++ (contents ++ back) := by
    simp only [List.append_assoc, List.cons_append, List.nil_append]
  have htotal : (front ++ 0x02 :: UInt8.ofNat contents.length :: (contents ++ back)).length =
      front.length + 2 + contents.length + back.length := by
    simp only [List.length_append, List.length_cons]
    omega
  have hparsed : parse_length_lax (front ++ 0x02 :: UInt8.ofNat contents.length :: (contents ++ back)) (front.length + 1) =
      some (contents.length, front.length + 2) := by
    rw [hsplit, parse_length_lax_short hbyte (by rw [List.length_append]; rfl), hvalue, List.length_append]
    rfl
  have hcontents : ((front ++ 0x02 :: UInt8.ofNat contents.length :: (contents ++ back)).drop (front.length + 2)).take
      contents.length = contents := by
    rw [hlast, List.drop_left' (by rw [List.length_append]; rfl), List.take_left' rfl]
  rw [hpos, parse_der_integer_lax, htotal, if_neg (by omega), getD_append, if_neg (fun h => h rfl), if_neg (by omega), hparsed]
  dsimp only
  rw [if_neg (by omega), if_neg (by omega), hcontents]

theorem copy_integer_to_32_integer (hpos : 0 < n) (hfit : n < 256 ^ 32) :
    copy_integer_to_32 (der.integer 32 n) = some (der.bytes 32 n) := by
  rw [copy_integer_to_32, der.dropWhile_integer hpos hfit]
  rw [if_neg (Nat.not_lt.mpr (der.length_magnitude_le 32 n)), der.zeros_append_magnitude]

open qubitcoin.sign

variable (secp : Secp256k1)

theorem ecdsa_signature_parse_der_lax_signature {r s : Nat} (hr : 0 < r) (hr' : r < 256 ^ 32) (hs : 0 < s)
    (hs' : s < 256 ^ 32) : ecdsa_signature_parse_der_lax secp (der.signature 32 (r, s)) =
      .ok (secp.from_compact (der.bytes 32 r ++ der.bytes 32 s)) := by
  obtain ⟨hlow_r, hhigh_r⟩ := der.length_integer hr hr'
  obtain ⟨hlow_s, hhigh_s⟩ := der.length_integer hs hs'
  have hcopy_r := copy_integer_to_32_integer hr hr'
  have hcopy_s := copy_integer_to_32_integer hs hs'
  have hlength := der.length_signature 32 (r, s)
  rw [der.signature] at hlength ⊢
  dsimp only at hlength ⊢
  generalize der.integer 32 r = r_bytes at *
  generalize der.integer 32 s = s_bytes at *
  have htotal : UInt8.ofNat (4 + r_bytes.length + s_bytes.length) < 0x80 := by
    rw [UInt8.lt_iff_toNat_lt, UInt8.toNat_ofNat_of_lt' (Nat.lt_of_le_of_lt (m := 70) (by omega) (by decide))]
    exact Nat.lt_of_le_of_lt (m := 70) (by omega) (by decide)
  generalize UInt8.ofNat (4 + r_bytes.length + s_bytes.length) = total at *
  have hskip : skip_sequence_length (0x30 :: total :: 0x02 :: UInt8.ofNat r_bytes.length ::
      (r_bytes ++ 0x02 :: UInt8.ofNat s_bytes.length :: s_bytes)) = 2 := by
    rw [skip_sequence_length]
    change (if total &&& 0x80 ≠ 0 then _ else _) = _
    rw [vm.sign_bit_eq_zero htotal, if_neg (by decide)]
  have hparse_r := @parse_der_integer_lax_integer [0x30, total] r_bytes (0x02 :: UInt8.ofNat s_bytes.length :: s_bytes)
    (by rw [show [0x30, total].length = 2 from rfl]; decide) (by omega) 2 rfl
  have hparse_s := @parse_der_integer_lax_integer ([0x30, total, 0x02, UInt8.ofNat r_bytes.length] ++ r_bytes) s_bytes []
    (by simp only [List.length_append, List.length_cons, List.length_nil]; omega) (by omega) (4 + r_bytes.length)
    (by rw [List.length_append]; rfl)
  rw [List.append_nil, List.append_assoc] at hparse_s
  rw [ecdsa_signature_parse_der_lax, if_neg (by omega), hskip]
  change (parse_der_integer_lax ([0x30, total] ++ 0x02 :: UInt8.ofNat r_bytes.length ::
    (r_bytes ++ 0x02 :: UInt8.ofNat s_bytes.length :: s_bytes)) 2 >>= _) = _
  rw [hparse_r]
  change (parse_der_integer_lax ([0x30, total, 0x02, UInt8.ofNat r_bytes.length] ++
    (r_bytes ++ 0x02 :: UInt8.ofNat s_bytes.length :: s_bytes)) (4 + r_bytes.length) >>= _) = _
  rw [hparse_s]
  dsimp only [bind, Except.bind]
  rw [hcopy_r, hcopy_s]
  rfl

end qubitcoin.script_check
