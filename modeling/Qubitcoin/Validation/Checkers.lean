import Qubitcoin.Wallet.Verified

/-! The signature checker of the consensus crate against that of the node: where they give
    the same answers. -/

open qubitcoin primitives script transaction sighash interpreter interpreter.vm sign

namespace qubitcoin.script_check

variable (secp : Secp256k1) (self : TransactionSignatureChecker)

/-- Strict DER reads what lax DER does once the second number is made low. -/
def SameReading (sig : List UInt8) : Prop :=
  ∃ reading, ecdsa_signature_parse_der_lax secp sig = .ok reading ∧ secp.from_der sig = reading.map secp.normalize_s

theorem sameReading_signature (hreads : secp.Reads) {sig : Nat × Nat} (hsig : LowS sig) :
    SameReading secp (der.signature 32 sig) := by
  obtain ⟨r, s⟩ := sig
  have hparse := ecdsa_signature_parse_der_lax_signature secp hsig.r_pos (lt_of_lt_group_order hsig.r_lt) hsig.s_pos
    (lt_of_lt_group_order hsig.s_lt)
  rw [hreads.from_compact r s hsig.r_lt hsig.s_lt] at hparse
  refine ⟨_, hparse, ?_⟩
  rw [hreads.from_der r s hsig.r_pos hsig.r_lt hsig.s_pos hsig.s_lt, Option.map_some, hreads.normalize_s r s hsig.s_low]

variable {secp}

theorem SameReading.verify_ecdsa_signature {sig : List UInt8} (hsame : SameReading secp sig) (pubkey : List UInt8)
    (hash : Uint256) :
    script_check.verify_ecdsa_signature secp sig pubkey hash = .ok (sign.verify_ecdsa_signature secp sig pubkey hash) := by
  obtain ⟨reading, hlax, hstrict⟩ := hsame
  unfold script_check.verify_ecdsa_signature sign.verify_ecdsa_signature
  rw [hstrict, hlax]
  cases secp.public_key_from_slice pubkey with
  | none => cases reading <;> rfl
  | some pk => cases reading <;> rfl

theorem SameReading.check_ecdsa_signature {sig : List UInt8} (hsame : SameReading secp sig.dropLast) (pubkey : List UInt8)
    (script_code : Script) {sigversion : SigVersion} (hversion : sigversion.before_taproot = true) :
    script_check.check_ecdsa_signature secp self sig pubkey script_code sigversion =
      self.check_ecdsa_signature secp sig pubkey script_code sigversion := by
  unfold script_check.check_ecdsa_signature TransactionSignatureChecker.check_ecdsa_signature
  cases sig.getLast? with
  | none => rfl
  | some last =>
    dsimp only
    split
    · rfl
    · cases sigversion with
      | Base => exact hsame.verify_ecdsa_signature pubkey _
      | WitnessV0 =>
        dsimp only
        cases witness_v0_signature_hash secp.hashes script_code self.tx self.input_index last.toUInt32 self.amount
          self.precomputed with
        | error _ => rfl
        | ok sighash => exact hsame.verify_ecdsa_signature pubkey sighash
      | Taproot | Tapscript => cases hversion

/-- The execution data that a version goes with: a leaf for a script, whose evaluation has set
    the position of the last separator, and none for a key. -/
def Prepared (exec_data : ScriptExecutionData) : SigVersion → Prop
  | .Taproot => exec_data.tapleaf_hash_init = false
  | .Tapscript => exec_data.tapleaf_hash_init = true ∧ exec_data.codeseparator_pos_init = true
  | _ => True

/-- The verdict without its error. -/
def accepts {E : Type} (x : Except Panic (Except E Unit)) : Except Panic Bool := x.map fun verdict => verdict.toBool

theorem verify_schnorr_signature_eq {sig : List UInt8} (hlength : sig.length = 64) (pubkey : List UInt8) (hash : Uint256) :
    script_check.verify_schnorr_signature secp sig pubkey hash = sign.verify_schnorr_signature secp sig pubkey hash := by
  unfold script_check.verify_schnorr_signature sign.verify_schnorr_signature
  rw [if_neg (fun hne => hne hlength)]
  cases secp.x_only_from_slice pubkey with
  | none => cases secp.schnorr_from_slice sig <;> rfl
  | some pk => cases secp.schnorr_from_slice sig <;> rfl

variable {self}

theorem taproot_signature_hash_bad_base {hash_type : UInt32} (hfull : hash_type ≠ 0)
    (hbase : hash_type &&& SIGHASH_OUTPUT_MASK < 1 ∨ hash_type &&& SIGHASH_OUTPUT_MASK > 3) (ext_flag : UInt8)
    (tapleaf_hash : Option (List UInt8)) (codesep_pos : Option UInt32) (annex_hash : Option (List UInt8)) :
    taproot_signature_hash secp.hashes self.tx self.input_index hash_type self.precomputed ext_flag tapleaf_hash codesep_pos
      annex_hash = .ok none := by
  have hunknown : ¬ (hash_type ≤ 3 ∨ 0x81 ≤ hash_type ∧ hash_type ≤ 0x83) := by
    intro hknown
    have hnat : hash_type.toNat ≤ 3 ∨ 0x81 ≤ hash_type.toNat ∧ hash_type.toNat ≤ 0x83 := hknown
    have hcases : hash_type = 0 ∨ hash_type = 1 ∨ hash_type = 2 ∨ hash_type = 3 ∨ hash_type = 0x81 ∨ hash_type = 0x82 ∨
        hash_type = 0x83 := by
      simp only [← UInt32.toNat_inj]
      simp only [UInt32.reduceToNat]
      omega
    rcases hcases with rfl | rfl | rfl | rfl | rfl | rfl | rfl
    · exact hfull rfl
    all_goals revert hbase; decide
  rw [taproot_signature_hash, if_pos hunknown]

theorem taproot_signature_hash_key (hash_type : UInt32) (codesep_pos : Option UInt32) (annex_hash : Option (List UInt8)) :
    taproot_signature_hash secp.hashes self.tx self.input_index hash_type self.precomputed 0 none codesep_pos annex_hash =
      taproot_signature_hash secp.hashes self.tx self.input_index hash_type self.precomputed 0 none none annex_hash := by
  unfold taproot_signature_hash
  simp only [if_neg (show ¬ (0 : UInt8) = 1 by decide)]

/-- What both checkers ask of a Schnorr signature before they hash. -/
def Formed (sig pubkey : List UInt8) (sigversion : SigVersion) : Prop :=
  pubkey.length = 32 ∧ (sig.length = 64 ∨ sig.length = 65 ∧ sig.getD 64 0 ≠ 0) ∧ sigversion.before_taproot = false

def hash_type_of (sig : List UInt8) : UInt32 := if sig.length = 65 then (sig.getD 64 0).toUInt32 else 0

/-- What the hash of the transaction comes to. -/
def signed (secp : Secp256k1) (sig pubkey : List UInt8) (hash : Except Panic (Option Uint256)) : Except Panic Bool :=
  hash.map fun found => found.any fun sighash => sign.verify_schnorr_signature secp (sig.take 64) pubkey sighash

variable {sig pubkey : List UInt8} {sigversion : SigVersion}

theorem Formed.length_take (hformed : Formed sig pubkey sigversion) : (sig.take 64).length = 64 := by
  rw [List.length_take]
  obtain ⟨-, hlength | ⟨hlength, -⟩, -⟩ := hformed <;> omega

theorem check_schnorr_signature_node (hformed : Formed sig pubkey sigversion) (exec_data : ScriptExecutionData) :
    accepts (script_check.check_schnorr_signature secp self sig pubkey sigversion exec_data) =
      signed secp sig pubkey (taproot_signature_hash secp.hashes self.tx self.input_index (hash_type_of sig) self.precomputed
        (extension exec_data).1 (extension exec_data).2.1 (extension exec_data).2.2
        (if exec_data.annex_init && exec_data.annex_present then some exec_data.annex_hash else none)) := by
  have hverify := @verify_schnorr_signature_eq secp (sig.take 64) hformed.length_take pubkey
  obtain ⟨hkey, hlength, hversion⟩ := hformed
  have hfull : sig.isEmpty = false := by
    cases sig with
    | nil => rcases hlength with hlength | ⟨hlength, -⟩ <;> cases hlength
    | cons => rfl
  unfold script_check.check_schnorr_signature
  rw [hfull, if_neg Bool.false_ne_true, if_neg, if_neg (by omega), if_neg (fun hne => hne hkey), if_neg]
  · unfold signed hash_type_of
    dsimp only
    cases taproot_signature_hash secp.hashes self.tx self.input_index (if sig.length = 65 then (sig.getD 64 0).toUInt32 else 0)
        self.precomputed (extension exec_data).1 (extension exec_data).2.1 (extension exec_data).2.2
        (if exec_data.annex_init && exec_data.annex_present then some exec_data.annex_hash else none) with
    | error why => rfl
    | ok found =>
      cases found with
      | none => rfl
      | some sighash =>
        change Except.ok (require _ _).toBool = _
        rw [hverify]
        change _ = Except.ok (sign.verify_schnorr_signature secp (sig.take 64) pubkey sighash)
        cases sign.verify_schnorr_signature secp (sig.take 64) pubkey sighash <;> rfl
  · rintro ⟨hlong, hzero⟩
    rcases hlength with hlength | ⟨-, hne⟩
    · omega
    · exact hne hzero
  · rintro ⟨hscript, hkey⟩
    cases sigversion with
    | Base | WitnessV0 => cases hversion
    | Taproot => exact hkey rfl
    | Tapscript => exact hscript rfl

theorem check_schnorr_signature_node_refused (hformed : ¬ Formed sig pubkey sigversion) (exec_data : ScriptExecutionData) :
    accepts (script_check.check_schnorr_signature secp self sig pubkey sigversion exec_data) = .ok false := by
  unfold script_check.check_schnorr_signature
  split
  · rfl
  split
  · rfl
  next hscript =>
  split
  · rfl
  next hlength =>
  split
  · rfl
  next hkey =>
  split
  · rfl
  next hexplicit =>
  refine absurd ⟨not_not.mp hkey, ?_, ?_⟩ hformed
  · by_cases hlong : sig.length = 65
    · exact .inr ⟨hlong, fun hzero => hexplicit ⟨hlong, hzero⟩⟩
    · exact .inl (by omega)
  · cases sigversion with
    | Base | WitnessV0 => exact absurd ⟨SigVersion.noConfusion, SigVersion.noConfusion⟩ hscript
    | Taproot | Tapscript => rfl

theorem schnorr_hash_type_of_formed (hformed : Formed sig pubkey sigversion) :
    TransactionSignatureChecker.schnorr_hash_type sig = .ok (hash_type_of sig) := by
  unfold TransactionSignatureChecker.schnorr_hash_type hash_type_of
  obtain ⟨-, hlength | ⟨hlength, hexplicit⟩, -⟩ := hformed
  · rw [if_pos hlength, if_neg (by omega)]
  · rw [if_neg (by omega), if_pos hlength, if_neg hexplicit, if_pos hlength]

theorem check_schnorr_signature_consensus (hformed : Formed sig pubkey sigversion) {ext_flag : UInt8}
    (hflag : TransactionSignatureChecker.ext_flag sigversion = some ext_flag) (exec_data : ScriptExecutionData) :
    accepts (self.check_schnorr_signature secp sig pubkey sigversion exec_data) =
      signed secp sig pubkey (taproot_signature_hash secp.hashes self.tx self.input_index (hash_type_of sig) self.precomputed
        ext_flag (if exec_data.tapleaf_hash_init then some exec_data.tapleaf_hash else none)
        (if exec_data.codeseparator_pos_init then some (UInt32.ofNat exec_data.codeseparator_pos) else none)
        (if exec_data.annex_init && exec_data.annex_present then some exec_data.annex_hash else none)) := by
  unfold TransactionSignatureChecker.check_schnorr_signature
  rw [if_neg (fun hne => hne hformed.1), schnorr_hash_type_of_formed hformed, hflag]
  dsimp only
  split
  · next hbad =>
    rw [taproot_signature_hash_bad_base hbad.1 hbad.2]
    rfl
  · unfold signed
    cases taproot_signature_hash secp.hashes self.tx self.input_index (hash_type_of sig) self.precomputed ext_flag
        (if exec_data.tapleaf_hash_init then some exec_data.tapleaf_hash else none)
        (if exec_data.codeseparator_pos_init then some (UInt32.ofNat exec_data.codeseparator_pos) else none)
        (if exec_data.annex_init && exec_data.annex_present then some exec_data.annex_hash else none) with
    | error why => rfl
    | ok found =>
      cases found with
      | none => rfl
      | some sighash =>
        change Except.ok (require _ _).toBool = Except.ok (sign.verify_schnorr_signature secp (sig.take 64) pubkey sighash)
        cases sign.verify_schnorr_signature secp (sig.take 64) pubkey sighash <;> rfl

theorem check_schnorr_signature_consensus_refused (hformed : ¬ Formed sig pubkey sigversion)
    (exec_data : ScriptExecutionData) :
    accepts (self.check_schnorr_signature secp sig pubkey sigversion exec_data) = .ok false := by
  unfold TransactionSignatureChecker.check_schnorr_signature
  split
  · rfl
  next hkey =>
  split
  · rfl
  next hash_type htype =>
  dsimp only
  split
  · rfl
  split
  · rfl
  next ext_flag hflag =>
  refine absurd ⟨not_not.mp hkey, ?_, ?_⟩ hformed
  · unfold TransactionSignatureChecker.schnorr_hash_type at htype
    split at htype
    · next hshort => exact .inl hshort
    · split at htype
      · next hlong =>
        split at htype
        · cases htype
        · next hexplicit => exact .inr ⟨hlong, hexplicit⟩
      · cases htype
  · cases sigversion with
    | Base | WitnessV0 => cases hflag
    | Taproot | Tapscript => rfl

theorem Prepared.check_schnorr_signature {exec_data : ScriptExecutionData} (hprepared : Prepared exec_data sigversion) :
    accepts (script_check.check_schnorr_signature secp self sig pubkey sigversion exec_data) =
      accepts (self.check_schnorr_signature secp sig pubkey sigversion exec_data) := by
  by_cases hformed : Formed sig pubkey sigversion
  · rw [check_schnorr_signature_node hformed]
    cases sigversion with
    | Base | WitnessV0 => cases hformed.2.2
    | Taproot =>
      have hleaf : exec_data.tapleaf_hash_init = false := hprepared
      rw [check_schnorr_signature_consensus hformed rfl, extension, hleaf, if_neg Bool.false_ne_true,
        if_neg Bool.false_ne_true, taproot_signature_hash_key _ (if exec_data.codeseparator_pos_init then _ else _)]
    | Tapscript =>
      obtain ⟨hleaf, hpos⟩ := hprepared
      rw [check_schnorr_signature_consensus hformed rfl, extension, hleaf, hpos, if_pos rfl, if_pos rfl, if_pos rfl]
  · rw [check_schnorr_signature_node_refused hformed, check_schnorr_signature_consensus_refused hformed]

theorem check_lock_time_eq (lock_time : Int) : check_lock_time self lock_time = self.check_lock_time lock_time := by
  unfold check_lock_time TransactionSignatureChecker.check_lock_time LOCKTIME_THRESHOLD
  split
  · rfl
  · dsimp only
    have hkinds : decide ((self.tx.lock_time.toNat : Int) < 500000000) ≠ decide (lock_time < 500000000) ↔
        (self.tx.lock_time.toNat : Int) < 500000000 ∧ lock_time ≥ 500000000 ∨
          (self.tx.lock_time.toNat : Int) ≥ 500000000 ∧ lock_time < 500000000 := by
      rw [Ne, decide_eq_decide]
      omega
    simp only [hkinds]
    split
    · rfl
    split
    · rfl
    cases self.input with
    | error why => rfl
    | ok input =>
      change (if input.sequence = SEQUENCE_FINAL then Except.ok false else .ok true) = .ok (input.sequence != 0xffffffff)
      by_cases hfinal : input.sequence = SEQUENCE_FINAL
      · rw [if_pos hfinal, hfinal]
        rfl
      · rw [if_neg hfinal]
        exact congrArg Except.ok (bne_iff_ne.mpr hfinal).symm

theorem check_sequence_eq {sequence : Int} (henabled : sequence_disabled sequence = false) :
    check_sequence self sequence = self.check_sequence sequence := by
  have hnone : ¬ UInt32.ofInt sequence &&& SEQUENCE_LOCKTIME_DISABLE_FLAG ≠ 0 := fun hne => by
    rw [sequence_disabled, bne_eq_false_iff_eq] at henabled
    exact hne henabled
  unfold check_sequence TransactionSignatureChecker.check_sequence
  rw [← show SEQUENCE_LOCKTIME_DISABLE_FLAG = 0x80000000 from rfl, ← show SEQUENCE_LOCKTIME_TYPE_FLAG = 0x00400000 from rfl,
    ← show SEQUENCE_LOCKTIME_MASK = 0xffff from rfl]
  dsimp only
  rw [if_neg hnone]
  split
  · rfl
  split
  · rfl
  refine bind_congr fun input => ?_
  split
  · rfl
  split
  · rfl
  by_cases hle : UInt32.ofInt sequence &&& SEQUENCE_LOCKTIME_MASK ≤ input.sequence &&& SEQUENCE_LOCKTIME_MASK
  · rw [if_neg (UInt32.not_lt.mpr hle), decide_eq_true hle]
  · rw [if_pos (UInt32.not_le.mp hle), decide_eq_false hle]

variable (secp self)

/-- For every transaction, input and amount: ECDSA signatures of the versions that have them are
    checked alike if both parsers read the same from them, as they do from every encoding of low
    numbers, Schnorr signatures with the execution data of their version, all lock times, and all
    relative lock times that are compared. -/
theorem checkers_agree :
    (∀ sig pubkey script_code sigversion, sigversion.before_taproot = true → SameReading secp sig.dropLast →
      self.check_ecdsa_signature secp sig pubkey script_code sigversion =
        script_check.check_ecdsa_signature secp self sig pubkey script_code sigversion) ∧
    (secp.Reads → ∀ low hash_type pubkey script_code sigversion, LowS low → sigversion.before_taproot = true →
      self.check_ecdsa_signature secp (der.signature 32 low ++ [hash_type]) pubkey script_code sigversion =
        script_check.check_ecdsa_signature secp self (der.signature 32 low ++ [hash_type]) pubkey script_code sigversion) ∧
    (∀ sig pubkey sigversion exec_data, Prepared exec_data sigversion →
      accepts (self.check_schnorr_signature secp sig pubkey sigversion exec_data) =
        accepts (script_check.check_schnorr_signature secp self sig pubkey sigversion exec_data)) ∧
    (∀ lock_time, self.check_lock_time lock_time = check_lock_time self lock_time) ∧
    ∀ sequence, sequence_disabled sequence = false → self.check_sequence sequence = check_sequence self sequence := by
  refine ⟨fun sig pubkey script_code sigversion hversion hsame => ?_,
    fun hreads low hash_type pubkey script_code sigversion hlow hversion => ?_,
    fun sig pubkey sigversion exec_data hprepared => ?_, fun lock_time => ?_, fun sequence henabled => ?_⟩
  · exact (hsame.check_ecdsa_signature self pubkey script_code hversion).symm
  · have hsame : SameReading secp (der.signature 32 low ++ [hash_type]).dropLast :=
      List.dropLast_concat.symm ▸ sameReading_signature secp hreads hlow
    exact (hsame.check_ecdsa_signature self pubkey script_code hversion).symm
  · exact hprepared.check_schnorr_signature.symm
  · exact (check_lock_time_eq lock_time).symm
  · exact (check_sequence_eq henabled).symm

/-- The execution data of a leaf whose script has no separator. -/
def leaf_data : ScriptExecutionData :=
  { ScriptExecutionData.default with
    tapleaf_hash_init := true
    codeseparator_pos_init := true
    codeseparator_pos := 0xffffffff }

/-- A payment that is final at height 7, two blocks after the output that it spends. -/
def leaf_payment : Transaction :=
  .new wallet.generator_secp.hashes.hash256 2 [⟨⟨1, 0⟩, .new, 2, .new⟩] [⟨90000, ⟨[0x51]⟩⟩] 7

def leaf_checker : TransactionSignatureChecker :=
  ⟨leaf_payment, 0, wallet.generator_output.value, .new wallet.generator_secp.hashes leaf_payment [wallet.generator_output]⟩

/-- The calls of the crate, where a Schnorr signature is one of the payment as the leaf spends it. -/
def leaf_secp : Secp256k1 :=
  { wallet.generator_secp with
    verify_schnorr := fun _ hash _ => decide (taproot_signature_hash wallet.generator_secp.hashes leaf_checker.tx
      leaf_checker.input_index 0 leaf_checker.precomputed 1 (some leaf_data.tapleaf_hash) (some 0xffffffff) none =
        .ok (some hash)) }

theorem leaf_secp_reads : leaf_secp.Reads := by
  obtain ⟨hder, hcompact, hlow⟩ := wallet.generator_secp_reads
  unfold leaf_secp
  constructor
  · intro r s
    dsimp only
    exact hder r s
  · intro r s
    dsimp only
    exact hcompact r s
  · intro r s
    dsimp only
    exact hlow r s

theorem payment_signature_lowS : LowS wallet.payment_signature := by
  constructor <;> decide

theorem checkers_agree_on_payment :
    leaf_checker.check_ecdsa_signature leaf_secp (der.signature 32 wallet.payment_signature ++ [1])
        (0x02 :: der.bytes 32 wallet.generator.1) wallet.generator_output.script_pubkey .Base = .ok true ∧
      script_check.check_ecdsa_signature leaf_secp leaf_checker (der.signature 32 wallet.payment_signature ++ [1])
        (0x02 :: der.bytes 32 wallet.generator.1) wallet.generator_output.script_pubkey .Base = .ok true ∧
      script_check.check_ecdsa_signature leaf_secp leaf_checker (der.signature 32 wallet.payment_signature ++ [0x83])
        (0x02 :: der.bytes 32 wallet.generator.1) wallet.generator_output.script_pubkey .WitnessV0 = .ok true ∧
      accepts (leaf_checker.check_schnorr_signature leaf_secp (List.replicate 64 0) (der.bytes 32 wallet.generator.1)
        .Tapscript leaf_data) = .ok true ∧
      accepts (script_check.check_schnorr_signature leaf_secp leaf_checker (List.replicate 64 0)
        (der.bytes 32 wallet.generator.1) .Tapscript leaf_data) = .ok true ∧
      check_lock_time leaf_checker 7 = .ok true ∧ check_sequence leaf_checker 2 = .ok true := by
  obtain ⟨hread, hlow, hschnorr, hlock_time, hsequence⟩ := checkers_agree leaf_secp leaf_checker
  have hbase : leaf_checker.check_ecdsa_signature leaf_secp (der.signature 32 wallet.payment_signature ++ [1])
      (0x02 :: der.bytes 32 wallet.generator.1) wallet.generator_output.script_pubkey .Base = .ok true := by decide +kernel
  have hwitness : leaf_checker.check_ecdsa_signature leaf_secp (der.signature 32 wallet.payment_signature ++ [0x83])
      (0x02 :: der.bytes 32 wallet.generator.1) wallet.generator_output.script_pubkey .WitnessV0 = .ok true := by
    decide +kernel
  have hleaf : accepts (leaf_checker.check_schnorr_signature leaf_secp (List.replicate 64 0)
      (der.bytes 32 wallet.generator.1) .Tapscript leaf_data) = .ok true := by decide +kernel
  have hsame : SameReading leaf_secp (der.signature 32 wallet.payment_signature ++ [0x83]).dropLast :=
    List.dropLast_concat.symm ▸ sameReading_signature leaf_secp leaf_secp_reads payment_signature_lowS
  refine ⟨hbase, ?_, ?_, hleaf, ?_, ?_, ?_⟩
  · rw [← hlow leaf_secp_reads _ 1 _ _ .Base payment_signature_lowS rfl]
    exact hbase
  · rw [← hread _ _ _ .WitnessV0 rfl hsame]
    exact hwitness
  · rw [← hschnorr _ _ .Tapscript leaf_data ⟨rfl, rfl⟩]
    exact hleaf
  · rw [← hlock_time]
    decide +kernel
  · rw [← hsequence 2 (by decide)]
    decide +kernel

/-- How verification treats a second number that is not low. -/
structure HighS (secp : Secp256k1) : Prop where
  verify_ecdsa : ∀ hash r s pk, GROUP_ORDER / 2 < s → secp.verify_ecdsa hash (r, s) pk = false
  normalize_s : ∀ r s, GROUP_ORDER / 2 < s → secp.normalize_s (r, s) = (r, GROUP_ORDER - s)

/-- The payment, and what its hashes are made of. -/
def payment_checker : TransactionSignatureChecker :=
  ⟨wallet.generator_payment .new, 0, wallet.generator_output.value,
    .new wallet.generator_secp.hashes (wallet.generator_payment .new) [wallet.generator_output]⟩

/-- The calls of the crate, where a Schnorr signature is one of the payment as a script without
    a leaf spends it. -/
def payment_secp : Secp256k1 :=
  { wallet.generator_secp with
    verify_schnorr := fun _ hash _ => decide (taproot_signature_hash wallet.generator_secp.hashes payment_checker.tx
      payment_checker.input_index 0 payment_checker.precomputed 1 none none none = .ok (some hash)) }

theorem payment_secp_highS : HighS payment_secp where
  verify_ecdsa hash r s pk hhigh := by
    refine beq_eq_false_iff_ne.mpr fun heq => ?_
    have hlow : wallet.payment_signature.2 ≤ GROUP_ORDER / 2 := by decide
    rw [← heq] at hlow
    exact absurd hhigh (Nat.not_lt.mpr hlow)
  normalize_s r s hhigh := if_neg (Nat.not_le.mpr hhigh)

/-- The consensus crate takes an ECDSA signature in a tapscript, the node does not; without a
    leaf the consensus crate takes a Schnorr signature of a script, the node one of a key; and
    the node takes an ECDSA signature that is not low, the consensus crate does not. -/
theorem checkers_disagree :
    ∃ (secp : Secp256k1) (self : TransactionSignatureChecker) (low high pubkey sig x_only : List UInt8) (script_code : Script),
      HighS secp ∧ self.check_ecdsa_signature secp low pubkey script_code .Tapscript = .ok true ∧
      script_check.check_ecdsa_signature secp self low pubkey script_code .Tapscript = .ok false ∧
      accepts (self.check_schnorr_signature secp sig x_only .Tapscript .default) = .ok true ∧
      accepts (script_check.check_schnorr_signature secp self sig x_only .Tapscript .default) = .ok false ∧
      self.check_ecdsa_signature secp high pubkey script_code .Base = .ok false ∧
      script_check.check_ecdsa_signature secp self high pubkey script_code .Base = .ok true := by
  refine ⟨payment_secp, payment_checker, der.signature 32 wallet.payment_signature ++ [1],
    der.signature 32 (wallet.payment_signature.1, GROUP_ORDER - wallet.payment_signature.2) ++ [1],
    0x02 :: der.bytes 32 wallet.generator.1, List.replicate 64 0, der.bytes 32 wallet.generator.1,
    wallet.generator_output.script_pubkey, payment_secp_highS, ?_, ?_, ?_, ?_, ?_, ?_⟩
  all_goals decide +kernel

end qubitcoin.script_check
