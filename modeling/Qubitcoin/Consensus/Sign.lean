import Qubitcoin.Consensus.Sighash

/-! `qubitcoin-consensus/sign.rs`: the signature checker of the consensus crate, which signet
    solutions are checked with. -/

open qubitcoin primitives script transaction sighash interpreter interpreter.vm

namespace qubitcoin.sign

/-- The hash functions and the calls of the `secp256k1` crate. An ECDSA signature is the pair of
    its numbers; keys and Schnorr signatures are their bytes. -/
structure Secp256k1 extends Crypto where
  public_key_from_slice : List UInt8 → Option (List UInt8)
  from_compact : List UInt8 → Option (Nat × Nat)
  verify_ecdsa : Uint256 → Nat × Nat → List UInt8 → Bool
  schnorr_from_slice : List UInt8 → Option (List UInt8)
  verify_schnorr : List UInt8 → Uint256 → List UInt8 → Bool

def Secp256k1.hashes (secp : Secp256k1) : Hashes where
  hash256 bytes := .from_bytes (secp.hash256 bytes).val
  sha256_hash bytes := (secp.sha256_hash bytes).val
  hash160 bytes := (secp.hash160 bytes).val

/-- What a checker knows: the transaction, the input that is verified, the value of the output
    it spends and the hashes of the transaction. -/
structure TransactionSignatureChecker where
  tx : Transaction
  input_index : Nat
  amount : Int
  precomputed : PrecomputedTransactionData

/-- `self.tx.vin[self.input_index]`. -/
def TransactionSignatureChecker.input (self : TransactionSignatureChecker) : Except Panic TxIn :=
  match self.tx.vin[self.input_index]? with
  | some input => .ok input
  | none => .error .index_out_of_bounds

variable (secp : Secp256k1)

/-- Strict DER, and the numbers as they are. -/
def verify_ecdsa_signature (sig pubkey : List UInt8) (hash : Uint256) : Bool :=
  match secp.from_der sig with
  | none => false
  | some signature =>
    match secp.public_key_from_slice pubkey with
    | none => false
    | some pk => secp.verify_ecdsa hash signature pk

def verify_schnorr_signature (sig pubkey : List UInt8) (hash : Uint256) : Bool :=
  if sig.length ≠ 64 then false
  else
    match secp.schnorr_from_slice sig with
    | none => false
    | some signature =>
      match secp.x_only_from_slice pubkey with
      | none => false
      | some pk => secp.verify_schnorr signature hash pk

namespace TransactionSignatureChecker

variable (self : TransactionSignatureChecker)

/-- Every version but `WitnessV0` takes the legacy hash. -/
def check_ecdsa_signature (sig pubkey : List UInt8) (script_code : Script) (sigversion : SigVersion) :
    Except Panic Bool :=
  match sig.getLast? with
  | none => .ok false
  | some last =>
    if pubkey.isEmpty then .ok false
    else do
      let hash_type := last.toUInt32
      let sighash ← (match sigversion with
        | .WitnessV0 => witness_v0_signature_hash secp.hashes script_code self.tx self.input_index hash_type self.amount
            self.precomputed
        | _ => .ok (signature_hash secp.hashes script_code self.tx self.input_index hash_type))
      pure (verify_ecdsa_signature secp sig.dropLast pubkey sighash)

def schnorr_hash_type (sig : List UInt8) : Except ScriptError UInt32 :=
  if sig.length = 64 then .ok 0
  else if sig.length = 65 then
    if sig.getD 64 0 = 0 then .error .SchnorrSigHashtype else .ok (sig.getD 64 0).toUInt32
  else .error .SchnorrSigSize

/-- The flag of the extension that a version signs. -/
def ext_flag : SigVersion → Option UInt8
  | .Taproot => some 0
  | .Tapscript => some 1
  | _ => none

/-- The verdict, with the error that is reported. -/
def check_schnorr_signature (sig pubkey : List UInt8) (sigversion : SigVersion) (exec_data : ScriptExecutionData) :
    Except Panic (Except ScriptError Unit) :=
  if pubkey.length ≠ 32 then .ok (.error .SchnorrSig)
  else
    match schnorr_hash_type sig with
    | .error e => .ok (.error e)
    | .ok hash_type =>
      let base := hash_type &&& SIGHASH_OUTPUT_MASK
      if hash_type ≠ 0 ∧ (base < 1 ∨ base > 3) then .ok (.error .SchnorrSigHashtype)
      else
        match ext_flag sigversion with
        | none => .ok (.error .SchnorrSig)
        | some ext_flag => do
          let tapleaf_hash := if exec_data.tapleaf_hash_init then some exec_data.tapleaf_hash else none
          let codesep_pos := if exec_data.codeseparator_pos_init then
            some (UInt32.ofNat exec_data.codeseparator_pos) else none
          let annex_hash := if exec_data.annex_init && exec_data.annex_present then some exec_data.annex_hash else none
          match ← taproot_signature_hash secp.hashes self.tx self.input_index hash_type self.precomputed ext_flag
            tapleaf_hash codesep_pos annex_hash with
          | none => pure (.error .SchnorrSigHashtype)
          | some sighash =>
            pure (require (verify_schnorr_signature secp (sig.take 64) pubkey sighash) .SchnorrSig)

def check_lock_time (lock_time : Int) : Except Panic Bool :=
  if lock_time < 0 then .ok false
  else
    let tx_lock_time : Int := self.tx.lock_time.toNat
    if tx_lock_time < 500000000 ∧ lock_time ≥ 500000000 ∨ tx_lock_time ≥ 500000000 ∧ lock_time < 500000000 then .ok false
    else if lock_time > tx_lock_time then .ok false
    else do
      let input ← self.input
      pure (input.sequence != 0xffffffff)

def check_sequence (sequence : Int) : Except Panic Bool :=
  if sequence < 0 then .ok false
  else
    let seq_val := UInt32.ofInt sequence
    if seq_val &&& 0x80000000 ≠ 0 then .ok true
    else if self.tx.version < 2 then .ok false
    else do
      let input ← self.input
      let tx_seq := input.sequence
      if tx_seq &&& 0x80000000 ≠ 0 then pure false
      else if seq_val &&& 0x00400000 ≠ tx_seq &&& 0x00400000 then pure false
      else pure (decide (seq_val &&& 0xffff ≤ tx_seq &&& 0xffff))

end TransactionSignatureChecker

end qubitcoin.sign
