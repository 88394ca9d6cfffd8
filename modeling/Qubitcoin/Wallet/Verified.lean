import Mathlib.Tactic.NormNum.LegendreSymbol
import Qubitcoin.Validation.Encodings
import Qubitcoin.Validation.TimeLocks
import Qubitcoin.Wallet.Addresses

/-! Inputs that the wallet has signed pass the interpreter. -/

open qubitcoin primitives script transaction sighash interpreter interpreter.vm

namespace qubitcoin.sign

def FIELD_SIZE : Nat := 0xfffffffffffffffffffffffffffffffffffffffffffffffffffffffefffffc2f

/-- A point of the curve has the number as its first coordinate. -/
def OnCurve (x : Nat) : Prop := ∃ y, y * y % FIELD_SIZE = (x ^ 3 + 7) % FIELD_SIZE

theorem not_square {n : Nat} (hsymbol : jacobiSym n FIELD_SIZE = -1) (y : Nat) : y * y % FIELD_SIZE ≠ n % FIELD_SIZE := by
  intro heq
  refine ZMod.nonsquare_of_jacobiSym_eq_neg_one hsymbol ⟨y, ?_⟩
  have hcast := (ZMod.natCast_eq_natCast_iff _ _ _).mpr heq
  rw [Nat.cast_mul] at hcast
  rw [Int.cast_natCast]
  exact hcast.symm

theorem not_onCurve_zero : ¬ OnCurve 0 := by
  rintro ⟨y, hy⟩
  refine not_square (n := 0 ^ 3 + 7) ?_ y hy
  rw [FIELD_SIZE]
  norm_num

theorem not_onCurve_sign : ¬ OnCurve 0x80 := by
  rintro ⟨y, hy⟩
  refine not_square (n := 0x80 ^ 3 + 7) ?_ y hy
  rw [FIELD_SIZE]
  norm_num

theorem value_of_cast_to_bool_false {bytes : List UInt8} (hfalse : cast_to_bool bytes = false) :
    der.value bytes = 0 ∨ der.value bytes = 0x80 := by
  induction bytes with
  | nil => exact .inl rfl
  | cons byte rest ih =>
    cases rest with
    | nil =>
      rw [cast_to_bool, Bool.and_eq_false_iff, bne_eq_false_iff_eq, bne_eq_false_iff_eq] at hfalse
      rcases hfalse with rfl | rfl
      · exact .inl rfl
      · exact .inr rfl
    | cons next rest =>
      rw [cast_to_bool, Bool.or_eq_false_iff, bne_eq_false_iff_eq] at hfalse
      · obtain ⟨rfl, hrest⟩ := hfalse
        rw [der.value_cons, UInt8.toNat_zero, Nat.zero_mul, Nat.add_zero]
        exact ih hrest
      · exact nofun

theorem OnCurve.cast_to_bool {bytes : List UInt8} (hcurve : OnCurve (der.value bytes)) : cast_to_bool bytes = true := by
  by_contra hfalse
  rcases value_of_cast_to_bool_false (Bool.not_eq_true _ ▸ hfalse) with hvalue | hvalue
  · rw [hvalue] at hcurve
    exact not_onCurve_zero hcurve
  · rw [hvalue] at hcurve
    exact not_onCurve_sign hcurve

end qubitcoin.sign

namespace qubitcoin.script_check

open qubitcoin.sign

variable {secp : Secp256k1} {self : TransactionSignatureChecker} {sig : Nat × Nat} {pubkey pk : List UInt8}

theorem verify_ecdsa_signature_signature {hash : Uint256} (hreads : secp.Reads) (hsig : LowS sig)
    (hkey : secp.public_key_from_slice pubkey = some pk) (hverify : secp.verify_ecdsa hash sig pk = true) :
    verify_ecdsa_signature secp (der.signature 32 sig) pubkey hash = .ok true := by
  obtain ⟨r, s⟩ := sig
  have hparse := ecdsa_signature_parse_der_lax_signature secp hsig.r_pos (lt_of_lt_group_order hsig.r_lt) hsig.s_pos
    (lt_of_lt_group_order hsig.s_lt)
  rw [hreads.from_compact r s hsig.r_lt hsig.s_lt] at hparse
  rw [verify_ecdsa_signature, hkey]
  change (ecdsa_signature_parse_der_lax secp (der.signature 32 (r, s)) >>= _) = _
  rw [hparse]
  change Except.ok (secp.verify_ecdsa hash (secp.normalize_s (r, s)) pk) = _
  rw [hreads.normalize_s r s hsig.s_low, hverify]

theorem node_checker_base {script_code : Script} (hreads : secp.Reads) (hsig : LowS sig) (hfull : pubkey.isEmpty = false)
    (hkey : secp.public_key_from_slice pubkey = some pk)
    (hverify : secp.verify_ecdsa (signature_hash secp.hashes script_code self.tx self.input_index SIGHASH_ALL) sig pk = true) :
    (node_checker secp self).check_ecdsa_signature (der.signature 32 sig ++ [SIGHASH_ALL.toUInt8]) pubkey script_code .Base =
      true := by
  change answer (check_ecdsa_signature secp self _ _ _ _) = true
  rw [check_ecdsa_signature, List.getLast?_concat]
  dsimp only
  rw [hfull, if_neg Bool.false_ne_true, List.dropLast_concat]
  rw [show SIGHASH_ALL.toUInt8.toUInt32 = SIGHASH_ALL from rfl, verify_ecdsa_signature_signature hreads hsig hkey hverify]
  rfl

theorem node_checker_witness {script_code : Script} {hash : Uint256} (hreads : secp.Reads) (hsig : LowS sig)
    (hfull : pubkey.isEmpty = false) (hkey : secp.public_key_from_slice pubkey = some pk)
    (hhash : witness_v0_signature_hash secp.hashes script_code self.tx self.input_index SIGHASH_ALL self.amount
      self.precomputed = .ok hash) (hverify : secp.verify_ecdsa hash sig pk = true) :
    (node_checker secp self).check_ecdsa_signature (der.signature 32 sig ++ [SIGHASH_ALL.toUInt8]) pubkey script_code
      .WitnessV0 = true := by
  change answer (check_ecdsa_signature secp self _ _ _ _) = true
  rw [check_ecdsa_signature, List.getLast?_concat]
  dsimp only
  rw [hfull, if_neg Bool.false_ne_true, List.dropLast_concat, show SIGHASH_ALL.toUInt8.toUInt32 = SIGHASH_ALL from rfl, hhash]
  change answer (verify_ecdsa_signature secp _ _ _) = true
  rw [verify_ecdsa_signature_signature hreads hsig hkey hverify]
  rfl

theorem node_checker_taproot {sig parsed x_only : List UInt8} {hash : Uint256} (hlength : sig.length = 64)
    (hkey_length : x_only.length = 32) (hparsed : secp.schnorr_from_slice sig = some parsed)
    (hkey : secp.x_only_from_slice x_only = some pk)
    (hhash : taproot_signature_hash secp.hashes self.tx self.input_index 0 self.precomputed 0 none none none =
      .ok (some hash)) (hverify : secp.verify_schnorr parsed hash pk = true) :
    (node_checker secp self).check_schnorr_signature sig x_only .Taproot
      { ScriptExecutionData.default with annex_init := true } = .ok () := by
  have hfull : sig.isEmpty = false := by
    cases sig with
    | nil => cases hlength
    | cons => rfl
  have hsignature : verify_schnorr_signature secp sig x_only hash = true := by
    rw [verify_schnorr_signature, hkey]
    dsimp only
    rw [hparsed]
    exact hverify
  have hcheck : check_schnorr_signature secp self sig x_only .Taproot
      { ScriptExecutionData.default with annex_init := true } = .ok (.ok ()) := by
    rw [check_schnorr_signature, hfull, if_neg Bool.false_ne_true, if_neg (fun h => h.2 rfl), if_neg (fun h => h.1 hlength),
      if_neg (fun h => h hkey_length), if_neg (fun h => absurd (hlength.symm.trans h.1) (by decide)), if_neg (by omega)]
    change (taproot_signature_hash secp.hashes self.tx self.input_index 0 self.precomputed 0 none none none >>= _) = _
    rw [hhash]
    change Except.ok (require (verify_schnorr_signature secp (sig.take 64) x_only hash) none) = _
    rw [← hlength, List.take_length, hsignature]
    rfl
  unfold node_checker
  dsimp only
  rw [hcheck]

end qubitcoin.script_check

namespace qubitcoin.wallet

open qubitcoin sign script_check ScriptVerifyFlags

/-- What the key operations are relied on for: signatures that verify, keys that are encoded as
    the crate encodes them, and a hash without structure. -/
structure KeyWorks (secp : Secp256k1) (key : Key) : Prop where
  pubkey_length : key.pubkey.length = 33
  pubkey_first : key.pubkey.head? = some 0x02 ∨ key.pubkey.head? = some 0x03
  signs : ∃ pk, secp.public_key_from_slice key.pubkey = some pk ∧
    ∀ hash, ∃ sig, LowS sig ∧ key.sign hash = some (der.signature 32 sig) ∧ secp.verify_ecdsa hash sig pk = true
  x_only_length : key.x_only.length = 32
  x_only_on_curve : OnCurve (der.value key.x_only)
  signs_schnorr : ∃ pk, secp.x_only_from_slice key.x_only = some pk ∧
    ∀ hash, ∃ sig parsed, sig.length = 64 ∧ key.sign_schnorr hash = some sig ∧
      secp.schnorr_from_slice sig = some parsed ∧ secp.verify_schnorr parsed hash pk = true
  hash_true : cast_to_bool (secp.hash160 key.pubkey).val = true
  hash_no_signature : ∀ sig, LowS sig → (secp.hash160 key.pubkey).val ≠ der.signature 32 sig ++ [SIGHASH_ALL.toUInt8]

variable {secp : Secp256k1} {key : Key} {tx signed : Transaction} {spent_outputs : List TxOut} {i : Nat} {prev_out : TxOut}

theorem KeyWorks.check_pubkey_encoding (hkey : KeyWorks secp key) (sigversion : SigVersion) :
    check_pubkey_encoding STANDARD_SCRIPT_VERIFY_FLAGS key.pubkey sigversion = .ok () := by
  obtain ⟨first, rest, hpubkey⟩ : ∃ first rest, key.pubkey = first :: rest := by
    cases hpubkey : key.pubkey with
    | nil =>
      have hlength := hkey.pubkey_length
      rw [hpubkey] at hlength
      cases hlength
    | cons first rest => exact ⟨first, rest, rfl⟩
  have hlength := hkey.pubkey_length
  have hfirst := hkey.pubkey_first
  rw [hpubkey] at hlength hfirst ⊢
  rw [List.head?_cons, Option.some_inj, Option.some_inj] at hfirst
  have hany : is_compressed_or_uncompressed_pubkey (first :: rest) = .ok true := by
    rw [is_compressed_or_uncompressed_pubkey, if_neg (by omega), hlength]
    rcases hfirst with rfl | rfl <;> rfl
  have hcompressed : is_compressed_pubkey (first :: rest) = .ok true := by
    rw [is_compressed_pubkey, if_pos hlength]
    rcases hfirst with rfl | rfl <;> rfl
  rw [vm.check_pubkey_encoding, hany, hcompressed]
  cases sigversion <;> rfl

theorem length_signature_bounds {sig : Nat × Nat} (hsig : LowS sig) (hash_type : UInt8) :
    9 ≤ (der.signature 32 sig ++ [hash_type]).length ∧ (der.signature 32 sig ++ [hash_type]).length ≤ 73 := by
  have hr := der.length_integer hsig.r_pos (lt_of_lt_group_order hsig.r_lt)
  have hs := der.length_integer hsig.s_pos (lt_of_lt_group_order hsig.s_lt)
  rw [List.length_append, der.length_signature, List.length_singleton]
  omega

theorem KeyWorks.pubkey_full (hkey : KeyWorks secp key) : key.pubkey.isEmpty = false := by
  have hlength := hkey.pubkey_length
  cases hpubkey : key.pubkey with
  | nil =>
    rw [hpubkey] at hlength
    cases hlength
  | cons => rfl

/-- The checker of an input once the transaction is signed. -/
def signed_checker (secp : Secp256k1) (signed : Transaction) (spent_outputs : List TxOut) (i : Nat) (prev_out : TxOut) :
    vm.SignatureChecker :=
  node_checker secp ⟨signed, i, prev_out.value, .new secp.hashes signed spent_outputs⟩

/-- The interpreter passes an input. -/
def Verifies (secp : Secp256k1) (signed : Transaction) (spent_outputs : List TxOut) (i : Nat) (prev_out : TxOut)
    (input : TxIn) : Prop :=
  vm.verify_script secp.toCrypto (signed_checker secp signed spent_outputs i prev_out) STANDARD_SCRIPT_VERIFY_FLAGS
    input.script_sig prev_out.script_pubkey input.witness = .ok ()

theorem sign_input_pkh (hreads : secp.Reads) (hkey : KeyWorks secp key) (hsame : SameOutline tx signed)
    (hscript : prev_out.script_pubkey = build_p2pkh (secp.hash160 key.pubkey).val) :
    ∃ edit, (key.wallet_key .Pkh).sign_input secp.hashes tx i prev_out (.new secp.hashes tx spent_outputs) = .ok (some edit) ∧
      ∀ input, Verifies secp signed spent_outputs i prev_out (edit input) ↔ input.witness.is_null = true := by
  obtain ⟨pk, hpk, hsigns⟩ := hkey.signs
  obtain ⟨sig, hsig, hsign, hverify⟩ := hsigns (signature_hash secp.hashes prev_out.script_pubkey tx i SIGHASH_ALL)
  obtain ⟨hlow, hhigh⟩ := length_signature_bounds hsig SIGHASH_ALL.toUInt8
  refine ⟨fun input => { input with script_sig :=
    (Script.new.push_data (der.signature 32 sig ++ [SIGHASH_ALL.toUInt8])).push_data key.pubkey }, ?_, fun input => ?_⟩
  · change Except.ok ((key.sign _).map _) = _
    rw [hsign]
    rfl
  · rw [Verifies, hscript]
    refine verify_p2pkh (by omega) (by omega) hkey.pubkey_length ?_ (check_signature_encoding_signature hreads hsig)
      (hkey.check_pubkey_encoding .Base) ?_
    · exact drop_signature_p2pkh (secp.hash160 key.pubkey).property (by omega) (by omega) (hkey.hash_no_signature sig hsig).symm
    · refine node_checker_base hreads hsig hkey.pubkey_full hpk ?_
      rw [hsame.signature_hash, ← hscript]
      exact hverify

theorem key_hash_witness_verifies (hreads : secp.Reads) (hkey : KeyWorks secp key) (hsame : SameOutline tx signed)
    (hi : i < tx.vin.length) {is_p2sh : Bool} :
    ∃ witness, (key.wallet_key .Wpkh).key_hash_witness secp.hashes tx i prev_out (.new secp.hashes tx spent_outputs) =
        .ok (some witness) ∧
      verify_witness_program secp.toCrypto (signed_checker secp signed spent_outputs i prev_out)
        STANDARD_SCRIPT_VERIFY_FLAGS witness 0 (secp.hash160 key.pubkey).val is_p2sh = .ok () := by
  obtain ⟨hash, hhash⟩ : ∃ hash, witness_v0_signature_hash secp.hashes (build_p2pkh (secp.hash160 key.pubkey).val) tx i
      SIGHASH_ALL prev_out.value (.new secp.hashes tx spent_outputs) = .ok hash := by
    unfold witness_v0_signature_hash
    rw [List.getElem?_eq_getElem hi]
    exact ⟨_, rfl⟩
  obtain ⟨pk, hpk, hsigns⟩ := hkey.signs
  obtain ⟨sig, hsig, hsign, hverify⟩ := hsigns hash
  obtain ⟨hlow, hhigh⟩ := length_signature_bounds hsig SIGHASH_ALL.toUInt8
  refine ⟨⟨[der.signature 32 sig ++ [SIGHASH_ALL.toUInt8], key.pubkey]⟩, ?_, ?_⟩
  · rw [WalletKey.key_hash_witness]
    change (witness_v0_signature_hash secp.hashes (build_p2pkh (secp.hash160 key.pubkey).val) tx i _ _ _ >>= _) = _
    rw [hhash]
    change Except.ok ((key.sign hash).map _) = _
    rw [hsign]
    rfl
  · refine verify_key_hash (Nat.le_trans hhigh (by decide)) hkey.pubkey_length
      (check_signature_encoding_signature hreads hsig) (hkey.check_pubkey_encoding .WitnessV0) ?_
    refine node_checker_witness hreads hsig hkey.pubkey_full hpk ?_ hverify
    change witness_v0_signature_hash secp.hashes _ signed i SIGHASH_ALL prev_out.value (.new secp.hashes signed spent_outputs) = _
    rw [hsame.precomputed, hsame.witness_v0_signature_hash]
    exact hhash

theorem sign_input_verifies (hreads : secp.Reads) (hkey : KeyWorks secp key) (hsame : SameOutline tx signed)
    (hi : i < tx.vin.length) {descriptor_type : DescriptorType}
    (hscript : prev_out.script_pubkey = descriptor_type.script_pubkey secp.hashes key) :
    ∃ edit, (key.wallet_key descriptor_type).sign_input secp.hashes tx i prev_out (.new secp.hashes tx spent_outputs) =
        .ok (some edit) ∧
      ∀ input, Verifies secp signed spent_outputs i prev_out (edit input) ↔
        (descriptor_type = .Pkh → input.witness.is_null = true) := by
  have hhash := (secp.hash160 key.pubkey).property
  cases descriptor_type with
  | Pkh =>
    obtain ⟨edit, hedit, hverifies⟩ := @sign_input_pkh secp key tx signed spent_outputs i prev_out hreads hkey hsame hscript
    exact ⟨edit, hedit, fun input => (hverifies input).trans ⟨fun h _ => h, fun h => h rfl⟩⟩
  | Wpkh =>
    obtain ⟨witness, hwitness, hprogram⟩ := @key_hash_witness_verifies secp key tx signed spent_outputs i prev_out hreads
      hkey hsame hi false
    refine ⟨fun input => { input with witness, script_sig := .new }, ?_, fun input => ⟨nofun, fun _ => ?_⟩⟩
    · change (WalletKey.key_hash_witness secp.hashes (key.wallet_key .Wpkh) tx i prev_out _ >>= _) = _
      rw [hwitness]
      rfl
    · rw [Verifies, hscript]
      exact verify_p2wpkh hhash hkey.hash_true hprogram
  | ShWpkh =>
    obtain ⟨witness, hwitness, hprogram⟩ := @key_hash_witness_verifies secp key tx signed spent_outputs i prev_out hreads
      hkey hsame hi true
    let redeem_script := build_p2wpkh (secp.hash160 key.pubkey).val
    refine ⟨fun input => { input with witness, script_sig := Script.new.push_data redeem_script.data }, ?_,
      fun input => ⟨nofun, fun _ => ?_⟩⟩
    · change (WalletKey.key_hash_witness secp.hashes (key.wallet_key .Wpkh) tx i prev_out _ >>= _) = _
      rw [hwitness]
      rfl
    · rw [Verifies, hscript]
      exact verify_p2sh_p2wpkh hhash hkey.hash_true hprogram
  | Tr =>
    obtain ⟨hash, htapped⟩ : ∃ hash, taproot_signature_hash secp.hashes tx i 0 (.new secp.hashes tx spent_outputs) 0 none none
        none = .ok (some hash) := ⟨_, rfl⟩
    obtain ⟨pk, hpk, hsigns⟩ := hkey.signs_schnorr
    obtain ⟨sig, parsed, hlength, hsign, hparsed, hverify⟩ := hsigns hash
    refine ⟨fun input => { input with witness := ⟨[sig]⟩, script_sig := .new }, ?_, fun input => ⟨nofun, fun _ => ?_⟩⟩
    · change (taproot_signature_hash secp.hashes tx i 0 _ 0 none none none >>= _) = _
      rw [htapped]
      change Except.ok ((key.sign_schnorr hash).map _) = _
      rw [hsign]
      rfl
    · rw [Verifies, hscript]
      refine (verify_p2tr hkey.x_only_length ?_).mpr hkey.x_only_on_curve.cast_to_bool
      refine node_checker_taproot hlength hkey.x_only_length hparsed hpk ?_ hverify
      change taproot_signature_hash secp.hashes signed i 0 (.new secp.hashes signed spent_outputs) 0 none none none = _
      rw [hsame.precomputed, hsame.taproot_signature_hash]
      exact htapped

theorem is_p2pkh_script_pubkey (hkey : KeyWorks secp key) (descriptor_type : DescriptorType) :
    (descriptor_type.script_pubkey secp.hashes key).is_p2pkh = true ↔ descriptor_type = .Pkh := by
  have hhash := (secp.hash160 key.pubkey).property
  have hother : ∀ {script : Script}, script.data.length ≠ 25 → ¬ script.is_p2pkh = true := fun hlength => by
    rw [is_p2pkh_eq_false hlength]
    exact Bool.false_ne_true
  cases descriptor_type with
  | Pkh => exact ⟨fun _ => rfl, fun _ => is_p2pkh_build_p2pkh hhash⟩
  | Wpkh =>
    have hlen : (build_p2wpkh (secp.hash160 key.pubkey).val).data.length = 22 := len_build_p2wpkh hhash
    exact ⟨fun hp2pkh => absurd hp2pkh (hother fun h => absurd (hlen.symm.trans h) (by decide)), nofun⟩
  | ShWpkh =>
    have hinner := (secp.hash160 (build_p2wpkh (secp.hash160 key.pubkey).val).data).property
    have hlen := len_build_p2sh hinner
    exact ⟨fun hp2pkh => absurd hp2pkh (hother fun h => absurd (hlen.symm.trans h) (by decide)), nofun⟩
  | Tr =>
    have hlen := len_build_p2tr hkey.x_only_length
    exact ⟨fun hp2pkh => absurd hp2pkh (hother fun h => absurd (hlen.symm.trans h) (by decide)), nofun⟩

/-- An input after signing, in any transaction that differs from the signed one in no more than
    the scripts and witnesses of its inputs. -/
theorem Wallet.Matched.signed_input_verifies {wallet : Wallet} (hreads : secp.Reads)
    (hmatched : wallet.Matched secp.hashes (KeyWorks secp)) (hlength : tx.vin.length = spent_outputs.length) :
    ∃ signed count, wallet.sign_transaction secp.hashes tx spent_outputs = .ok (signed, count) ∧ SameOutline tx signed ∧
      ∀ i input prev_out, tx.vin[i]? = some input → spent_outputs[i]? = some prev_out →
        (wallet.is_mine prev_out.script_pubkey).isSome = true →
          ∃ made, signed.vin[i]? = some made ∧ ∀ final, SameOutline signed final →
            (Verifies secp final spent_outputs i prev_out made ↔
              (prev_out.script_pubkey.is_p2pkh = true → input.witness.is_null = true)) := by
  obtain ⟨signed, count, hsign, hsame, hmade⟩ := @Wallet.sign_transaction_spec secp.hashes wallet tx spent_outputs hlength
  refine ⟨signed, count, hsign, hsame, fun i input prev_out hinput hprev hmine => ?_⟩
  obtain ⟨key, descriptor_type, hkey, hfind, hscript⟩ := hmatched.find_key_for_script hmine
  have hi : i < tx.vin.length := (List.getElem?_eq_some_iff.mp hinput).choose
  obtain ⟨edit, hedit, -⟩ := @sign_input_verifies secp key tx tx spent_outputs i prev_out hreads hkey (.refl tx) hi _ hscript
  have hfound : wallet.sign_input secp.hashes tx i prev_out (.new secp.hashes tx spent_outputs) = .ok (some edit) := by
    rw [Wallet.sign_input, hfind]
    exact hedit
  have hget := hmade i prev_out _ hprev hfound
  rw [hinput] at hget
  refine ⟨edit input, hget, fun final hfinal => ?_⟩
  obtain ⟨same, hsame_edit, hverifies⟩ := @sign_input_verifies secp key tx final spent_outputs i prev_out hreads hkey
    (hsame.trans hfinal) hi _ hscript
  cases hedit.symm.trans hsame_edit
  rw [hverifies input, hscript, is_p2pkh_script_pubkey hkey]

/-- Every input of the wallet passes the interpreter once it is signed, also when other inputs
    are signed later, if and only if it had no witness left over where it spends a key hash. -/
theorem signed_inputs_verify_iff (hreads : secp.Reads) {wallet : DescriptorWallet}
    (hwallet : Grown secp.hashes (KeyWorks secp) wallet) (hlength : tx.vin.length = spent_outputs.length) :
    ∃ signed count, wallet.toWallet.sign_transaction secp.hashes tx spent_outputs = .ok (signed, count) ∧
      ∀ i input prev_out, tx.vin[i]? = some input → spent_outputs[i]? = some prev_out →
        (wallet.toWallet.is_mine prev_out.script_pubkey).isSome = true →
          ∃ made, signed.vin[i]? = some made ∧ ∀ final, SameOutline signed final →
            (Verifies secp final spent_outputs i prev_out made ↔
              (prev_out.script_pubkey.is_p2pkh = true → input.witness.is_null = true)) := by
  obtain ⟨signed, count, hsign, -, hinputs⟩ := hwallet.matched.signed_input_verifies hreads hlength
  exact ⟨signed, count, hsign, hinputs⟩

def payment_signature : Nat × Nat :=
  (0xc6047f9441ed7d6d3045406e95c07cd85c778e4b8cef3ca7abac09b95c709ee5,
    0x454664c93152e786ca9e8dd8383eab8df20a32268b473ba96b6a2e0503a8c287)

/-- The coordinates of the generator of the curve. -/
def generator : Nat × Nat :=
  (0x79be667ef9dcbbac55a06295ce870b07029bfcdb2dce28d959f2815b16f81798,
    0x483ada7726a3c4655da4fbfc0e1108a8fd17b448a68554199c47d08ffb10d4b8)

def generator_hash : List UInt8 :=
  [0x75, 0x1e, 0x76, 0xe8, 0x19, 0x91, 0x96, 0xd4, 0x54, 0x94, 0x1c, 0x45, 0xd1, 0xb3, 0xa3, 0x23, 0xf1, 0x43, 0x3b, 0xd6]

/-- Two numbers below the order of the group. -/
def read_compact (bytes : List UInt8) : Option (Nat × Nat) :=
  let sig := (der.value (bytes.take 32), der.value (bytes.drop 32))
  if bytes.length = 64 ∧ sig.1 < GROUP_ORDER ∧ sig.2 < GROUP_ORDER then some sig else none

/-- The numbers that the lax parser comes to. -/
def read_der (bytes : List UInt8) : Option (Nat × Nat) :=
  match ecdsa_signature_parse_der_lax { validation.zero_secp with from_compact := read_compact } bytes with
  | .ok sig => sig
  | .error _ => none

/-- The calls of the crate for the one key and the one signature. -/
def generator_secp : Secp256k1 where
  toCrypto := { zero_crypto with
    sha256_hash := fun bytes => ⟨littleEndian.toBytes 32 (littleEndian.ofBytes (crypto.sha256 bytes)), littleEndian.length_toBytes _ _⟩
    hash160 := fun _ => ⟨generator_hash, rfl⟩
    hash256 := fun bytes => ⟨(crypto.sha256d bytes).data, littleEndian.length_toBytes _ _⟩
    from_der := read_der
    normalize_s := fun sig => if sig.2 ≤ GROUP_ORDER / 2 then sig else (sig.1, GROUP_ORDER - sig.2)
    x_only_from_slice := fun bytes => if bytes = der.bytes 32 generator.1 then some bytes else none }
  public_key_from_slice bytes := if bytes = 0x02 :: der.bytes 32 generator.1 then some bytes else none
  from_compact := read_compact
  verify_ecdsa _ sig _ := sig == payment_signature
  schnorr_from_slice bytes := if bytes.length = 64 then some bytes else none
  verify_schnorr _ _ _ := true

theorem read_compact_bytes {r s : Nat} (hr : r < GROUP_ORDER) (hs : s < GROUP_ORDER) :
    read_compact (der.bytes 32 r ++ der.bytes 32 s) = some (r, s) := by
  have htake : (der.bytes 32 r ++ der.bytes 32 s).take 32 = der.bytes 32 r := List.take_left' (der.length_bytes 32 r)
  have hdrop : (der.bytes 32 r ++ der.bytes 32 s).drop 32 = der.bytes 32 s := List.drop_left' (der.length_bytes 32 r)
  have hlength : (der.bytes 32 r ++ der.bytes 32 s).length = 64 := by
    rw [List.length_append, der.length_bytes, der.length_bytes]
  unfold read_compact
  rw [htake, hdrop, der.value_bytes (lt_of_lt_group_order hr), der.value_bytes (lt_of_lt_group_order hs)]
  exact if_pos ⟨hlength, hr, hs⟩

theorem read_der_signature {r s : Nat} (hr : 0 < r) (hr' : r < GROUP_ORDER) (hs : 0 < s) (hs' : s < GROUP_ORDER) :
    read_der (der.signature 32 (r, s)) = some (r, s) := by
  rw [read_der, ecdsa_signature_parse_der_lax_signature _ hr (lt_of_lt_group_order hr') hs (lt_of_lt_group_order hs')]
  dsimp only
  rw [read_compact_bytes hr' hs']

theorem generator_secp_reads : generator_secp.Reads := by
  unfold generator_secp
  constructor
  · intro r s hr hr' hs hs'
    dsimp only
    exact read_der_signature hr hr' hs hs'
  · intro r s hr hs
    dsimp only
    exact read_compact_bytes hr hs
  · intro r s hs
    dsimp only
    exact if_pos hs

/-- The key one, which signs with the one signature. -/
def generator_key : Key where
  sign _ := some (der.signature 32 payment_signature)
  sign_schnorr _ := some (List.replicate 64 0)
  pubkey := 0x02 :: der.bytes 32 generator.1
  x_only := der.bytes 32 generator.1

theorem generator_key_works : KeyWorks generator_secp generator_key where
  pubkey_length := by rw [generator_key, List.length_cons, der.length_bytes]
  pubkey_first := .inl rfl
  signs := by
    refine ⟨0x02 :: der.bytes 32 generator.1, by decide +kernel, fun _ =>
      ⟨payment_signature, ⟨?_, ?_, ?_, ?_⟩, rfl, beq_self_eq_true payment_signature⟩⟩
    all_goals decide +kernel
  x_only_length := der.length_bytes 32 generator.1
  x_only_on_curve := by
    refine ⟨generator.2, ?_⟩
    decide +kernel
  signs_schnorr := ⟨der.bytes 32 generator.1, by decide +kernel, fun _ => ⟨List.replicate 64 0, List.replicate 64 0, rfl, rfl, rfl, rfl⟩⟩
  hash_true := rfl
  hash_no_signature sig _ heq := by
    have hhead := congrArg List.head? heq
    cases hhead

/-- A wallet with one legacy address, for the key one. -/
def generator_wallet : DescriptorWallet := (DescriptorWallet.new .Pkh).get_new_address generator_secp.hashes generator_key

theorem generator_wallet_grown : Grown generator_secp.hashes (KeyWorks generator_secp) generator_wallet :=
  .get_new_address (.new .Pkh) generator_key_works

def generator_output : TxOut := ⟨100000, build_p2pkh generator_hash⟩

/-- A payment from the address, with the given witness in its input. -/
def generator_payment (witness : Witness) : Transaction :=
  .new crypto.sha256d 2 [⟨⟨1, 0⟩, .new, SEQUENCE_FINAL, witness⟩] [⟨90000, ⟨[0x51]⟩⟩] 0

theorem signed_inputs_verify_iff_payment :
    ∃ signed count made, generator_wallet.toWallet.sign_transaction generator_secp.hashes (generator_payment .new)
        [generator_output] = .ok (signed, count) ∧ signed.vin[0]? = some made ∧
      Verifies generator_secp signed [generator_output] 0 generator_output made := by
  obtain ⟨signed, count, hsign, hinputs⟩ := @signed_inputs_verify_iff generator_secp (generator_payment .new)
    [generator_output] generator_secp_reads _ generator_wallet_grown rfl
  obtain ⟨made, hmade, hverifies⟩ := hinputs 0 _ generator_output rfl rfl (by decide +kernel)
  exact ⟨signed, count, made, hsign, hmade, (hverifies signed (.refl signed)).mpr fun _ => rfl⟩

/-- A witness that is left over in the input of a key hash output makes it fail. -/
theorem stale_witness_fails :
    ∃ signed made, generator_wallet.toWallet.sign_transaction generator_secp.hashes (generator_payment ⟨[[]]⟩)
        [generator_output] = .ok (signed, 1) ∧ signed.vin[0]? = some made ∧
      (generator_wallet.toWallet.is_mine generator_output.script_pubkey).isSome = true ∧
      vm.verify_script generator_secp.toCrypto (signed_checker generator_secp signed [generator_output] 0 generator_output)
        STANDARD_SCRIPT_VERIFY_FLAGS made.script_sig generator_output.script_pubkey made.witness =
          .error (.invalid .WitnessUnexpected) := by
  obtain ⟨signed, hsign⟩ : ∃ signed, generator_wallet.toWallet.sign_transaction generator_secp.hashes
    (generator_payment ⟨[[]]⟩) [generator_output] = .ok (signed, 1) := ⟨_, rfl⟩
  cases hsign
  refine ⟨_, _, rfl, rfl, by decide +kernel, ?_⟩
  decide +kernel

end qubitcoin.wallet
