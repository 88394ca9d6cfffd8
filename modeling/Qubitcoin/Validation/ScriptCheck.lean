import Qubitcoin.Coins.Cache
import Qubitcoin.Consensus.ValidationState
import Qubitcoin.Consensus.Sign
import Qubitcoin.Script.Verify

/-! `qubitcoin-node/script_check.rs`: the script checks of a block. -/

open qubitcoin primitives script transaction block coins params

namespace qubitcoin.script_check

/-- The data that the sighash midstates of a transaction are computed from. -/
structure PrecomputedTransactionData where
  tx : Transaction
  spent_outputs : List TxOut
  deriving DecidableEq, Repr

/-- The two signature checkers: the production one with its transaction, and
    the one that accepts no signature. -/
inductive SignatureChecker where
  | TransactionSignatureChecker (tx : Transaction) (input_index : Nat) (amount : Amount)
      (precomputed : PrecomputedTransactionData)
  | BaseSignatureChecker
  deriving DecidableEq, Repr

/-- One script verification task. -/
structure ScriptCheck where
  script_pubkey : Script
  script_sig : Script
  witness : Witness
  flags : UInt32
  amount : Amount
  tx_index : Nat
  input_index : Nat
  tx : Option Transaction
  precomputed : Option PrecomputedTransactionData
  deriving DecidableEq, Repr

structure ScriptCheckError where
  tx_index : Nat
  input_index : Nat
  error : String
  deriving DecidableEq, Repr

def ScriptCheckError.to_string (self : ScriptCheckError) : String :=
  "script verification failed: tx_index=" ++ toString self.tx_index ++ ", input_index=" ++
    toString self.input_index ++ ", error=" ++ self.error

end qubitcoin.script_check

namespace qubitcoin

open qubitcoin.script_check

/-- What validation calls and the model leaves open: the hash function, the
    script interpreter with the error it names, the signet signature check, and
    the order in which the parallel scheduler runs a list of checks. -/
structure Env where
  hash256 : List UInt8 → Uint256
  verify_script : Script → Script → Witness → UInt32 → SignatureChecker → Bool × String
  check_signet_block_solution : Block → ConsensusParams → Bool
  schedule : List ScriptCheck → List ScriptCheck
  schedule_perm : ∀ checks, (schedule checks).Perm checks

/-- Double SHA-256, checks run in order, and an interpreter that accepts nothing
    but the script `OP_1` with no input. -/
def Env.op_true : Env where
  hash256 := crypto.sha256d
  verify_script script_sig script_pubkey witness _ _ :=
    (script_sig.data.isEmpty && script_pubkey.data == [OP_1] && witness.is_null, "EvalFalse")
  check_signet_block_solution _ _ := false
  schedule checks := checks
  schedule_perm _ := List.Perm.refl _

end qubitcoin

namespace qubitcoin.script_check

variable (env : Env)

def ScriptCheck.checker (check : ScriptCheck) : SignatureChecker :=
  match check.tx with
  | some tx =>
    .TransactionSignatureChecker tx check.input_index check.amount
      (check.precomputed.getD ⟨tx, []⟩)
  | none => .BaseSignatureChecker

def verify_single_script (check : ScriptCheck) : Except ScriptCheckError Unit :=
  let (result, error) := env.verify_script check.script_sig check.script_pubkey check.witness check.flags
    check.checker
  if result then .ok () else .error ⟨check.tx_index, check.input_index, error⟩

/-- Run checks one after the other up to the first that fails. -/
def verify_in_order : List ScriptCheck → Except ScriptCheckError Unit
  | [] => .ok ()
  | check :: rest => do
    verify_single_script env check
    verify_in_order rest

/-- Up to four checks run in order; more run in parallel, and the first failure
    of the schedule is reported. -/
def verify_scripts_parallel (checks : List ScriptCheck) : Except ScriptCheckError Unit :=
  if checks.length ≤ 4 then verify_in_order env checks
  else verify_in_order env (env.schedule checks)

/-- The checks of one transaction. Inputs beyond the spent coins get none. -/
def collect_tx_script_checks (flags : UInt32) (tx_index : Nat) (tx : Transaction) (coins : List Coin) :
    List ScriptCheck :=
  (tx.vin.zip coins).zipIdx.map fun ((input, coin), input_index) =>
    { script_pubkey := coin.tx_out.script_pubkey
      script_sig := input.script_sig
      witness := input.witness
      flags
      amount := coin.tx_out.value
      tx_index
      input_index
      tx := some tx
      precomputed := some ⟨tx, coins.map Coin.tx_out⟩ }

/-- The transaction loop of `collect_block_script_checks` from an index on. The
    coins of the transaction at index `i` are at `i - 1`, which underflows for a
    first transaction that is no coinbase. -/
def collect_script_checks_from (spent_coins : List (List Coin)) (flags : UInt32) :
    Nat → List Transaction → Except Panic (List ScriptCheck)
  | _, [] => .ok []
  | tx_index, tx :: rest =>
    if tx.is_coinbase then collect_script_checks_from spent_coins flags (tx_index + 1) rest
    else if tx_index = 0 then .error (.overflow .usize)
    else
      match spent_coins[tx_index - 1]? with
      | none => collect_script_checks_from spent_coins flags (tx_index + 1) rest
      | some coins => do
        let checks ← collect_script_checks_from spent_coins flags (tx_index + 1) rest
        .ok (collect_tx_script_checks flags tx_index tx coins ++ checks)

def collect_block_script_checks (transactions : List Transaction) (spent_coins : List (List Coin))
    (flags : UInt32) : Except Panic (List ScriptCheck) :=
  collect_script_checks_from spent_coins flags 0 transactions

end qubitcoin.script_check

/-! `qubitcoin-node/script_check.rs`: the signature checker that blocks are checked with, and the
    interpreter that runs with it. -/

open qubitcoin primitives script transaction sighash interpreter interpreter.vm sign

namespace qubitcoin.script_check

/-- A length at a position, and the position after it. A long one is read modulo the size of the
    machine type. -/
def parse_length_lax (input : List UInt8) (pos : Nat) : Option (Nat × Nat) :=
  let first := input.getD pos 0
  if first &&& 0x80 ≠ 0 then
    let n_len_bytes := (first &&& 0x7f).toNat
    let pos := pos + 1
    if pos + n_len_bytes > input.length then none
    else
      some (((input.drop pos).take n_len_bytes).foldl (fun len byte => (len * 256 + byte.toNat) % 2 ^ 64) 0,
        pos + n_len_bytes)
  else some (first.toNat, pos + 1)

/-- An integer at a position, and the position after it. The end of a long integer overflows, or
    comes before its start; both abort. -/
def parse_der_integer_lax (input : List UInt8) (pos : Nat) : Except Panic (Option (List UInt8 × Nat)) :=
  if pos ≥ input.length then .ok none
  else if input.getD pos 0 ≠ 0x02 then .ok none
  else if pos + 1 ≥ input.length then .ok none
  else
    match parse_length_lax input (pos + 1) with
    | none => .ok none
    | some (len, pos) =>
      if pos + len ≥ 2 ^ 64 then .error (.overflow .usize)
      else if pos + len > input.length then .ok none
      else .ok (some ((input.drop pos).take len, pos + len))

/-- A big-endian number in 32 bytes, if it fits. -/
def copy_integer_to_32 (src : List UInt8) : Option (List UInt8) :=
  let trimmed := src.dropWhile (· == 0)
  if trimmed.length > 32 then none else some (List.replicate (32 - trimmed.length) 0 ++ trimmed)

/-- Where the first integer starts: after the tag and the length, which is not looked at. -/
def skip_sequence_length (input : List UInt8) : Nat :=
  if input.getD 1 0 &&& 0x80 ≠ 0 then 2 + (input.getD 1 0 &&& 0x7f).toNat else 2

variable (secp : sign.Secp256k1)

def ecdsa_signature_parse_der_lax (input : List UInt8) : Except Panic (Option (Nat × Nat)) :=
  if input.length < 2 then .ok none
  else if input.getD 0 0 ≠ 0x30 then .ok none
  else do
    match ← parse_der_integer_lax input (skip_sequence_length input) with
    | none => pure none
    | some (r_bytes, pos) =>
      match ← parse_der_integer_lax input pos with
      | none => pure none
      | some (s_bytes, _) =>
        match copy_integer_to_32 r_bytes, copy_integer_to_32 s_bytes with
        | some r, some s => pure (secp.from_compact (r ++ s))
        | _, _ => pure none

/-- Lax DER, with the second number made low. -/
def verify_ecdsa_signature (sig_bytes pubkey_bytes : List UInt8) (sighash : Uint256) : Except Panic Bool :=
  match secp.public_key_from_slice pubkey_bytes with
  | none => .ok false
  | some pubkey => do
    match ← ecdsa_signature_parse_der_lax secp sig_bytes with
    | none => pure false
    | some sig => pure (secp.verify_ecdsa sighash (secp.normalize_s sig) pubkey)

def verify_schnorr_signature (sig_bytes pubkey_bytes : List UInt8) (sighash : Uint256) : Bool :=
  match secp.x_only_from_slice pubkey_bytes with
  | none => false
  | some pubkey =>
    match secp.schnorr_from_slice sig_bytes with
    | none => false
    | some sig => secp.verify_schnorr sig sighash pubkey

section

variable (self : TransactionSignatureChecker)

def check_ecdsa_signature (sig pubkey : List UInt8) (script_code : Script) (sigversion : SigVersion) :
    Except Panic Bool :=
  match sig.getLast? with
  | none => .ok false
  | some last =>
    if pubkey.isEmpty then .ok false
    else
      let hash_type := last.toUInt32
      match sigversion with
      | .Base =>
        verify_ecdsa_signature secp sig.dropLast pubkey
          (signature_hash secp.hashes script_code self.tx self.input_index hash_type)
      | .WitnessV0 => do
        let sighash ← witness_v0_signature_hash secp.hashes script_code self.tx self.input_index hash_type self.amount
          self.precomputed
        verify_ecdsa_signature secp sig.dropLast pubkey sighash
      | _ => .ok false

/-- The extension that is signed: that of the leaf, where there is one. -/
def extension (exec_data : ScriptExecutionData) : UInt8 × Option (List UInt8) × Option UInt32 :=
  if exec_data.tapleaf_hash_init then
    (1, some exec_data.tapleaf_hash, some (UInt32.ofNat exec_data.codeseparator_pos))
  else (0, none, none)

/-- The verdict, with the error that is reported; a signature that does not verify is refused
    without one. -/
def check_schnorr_signature (sig pubkey : List UInt8) (sigversion : SigVersion) (exec_data : ScriptExecutionData) :
    Except Panic (Except (Option ScriptError) Unit) :=
  if sig.isEmpty then .ok (.error (some .SchnorrSig))
  else if sigversion ≠ .Tapscript ∧ sigversion ≠ .Taproot then .ok (.error (some .SchnorrSig))
  else if sig.length ≠ 64 ∧ sig.length ≠ 65 then .ok (.error (some .SchnorrSigSize))
  else if pubkey.length ≠ 32 then .ok (.error (some .SchnorrSig))
  else if sig.length = 65 ∧ sig.getD 64 0 = 0 then .ok (.error (some .SchnorrSigHashtype))
  else do
    let hash_type := if sig.length = 65 then (sig.getD 64 0).toUInt32 else 0
    let (ext_flag, tapleaf_hash, codesep_pos) := extension exec_data
    let annex_hash := if exec_data.annex_init && exec_data.annex_present then some exec_data.annex_hash else none
    match ← taproot_signature_hash secp.hashes self.tx self.input_index hash_type self.precomputed ext_flag
      tapleaf_hash codesep_pos annex_hash with
    | none => pure (.error (some .SchnorrSigHashtype))
    | some sighash => pure (require (verify_schnorr_signature secp (sig.take 64) pubkey sighash) none)

def LOCKTIME_THRESHOLD : Int := 500000000

def check_lock_time (lock_time : Int) : Except Panic Bool :=
  if lock_time < 0 then .ok false
  else
    let tx_lock_time : Int := self.tx.lock_time.toNat
    if decide (tx_lock_time < LOCKTIME_THRESHOLD) ≠ decide (lock_time < LOCKTIME_THRESHOLD) then .ok false
    else if lock_time > tx_lock_time then .ok false
    else do
      let input ← self.input
      if input.sequence = SEQUENCE_FINAL then pure false else pure true

def check_sequence (sequence : Int) : Except Panic Bool :=
  if sequence < 0 then .ok false
  else
    let n_sequence := UInt32.ofInt sequence
    if self.tx.version < 2 then .ok false
    else if n_sequence &&& SEQUENCE_LOCKTIME_DISABLE_FLAG ≠ 0 then .ok true
    else do
      let input ← self.input
      let tx_sequence := input.sequence
      if tx_sequence &&& SEQUENCE_LOCKTIME_DISABLE_FLAG ≠ 0 then pure false
      else if n_sequence &&& SEQUENCE_LOCKTIME_TYPE_FLAG ≠ tx_sequence &&& SEQUENCE_LOCKTIME_TYPE_FLAG then pure false
      else if n_sequence &&& SEQUENCE_LOCKTIME_MASK > tx_sequence &&& SEQUENCE_LOCKTIME_MASK then pure false
      else pure true

end

/-- An answer, where an abort stands for no. -/
def answer (x : Except Panic Bool) : Bool :=
  match x with
  | .ok b => b
  | .error _ => false

/-- The checker as the interpreter calls it. -/
def node_checker (self : TransactionSignatureChecker) : vm.SignatureChecker where
  check_ecdsa_signature sig pubkey script_code sigversion :=
    answer (check_ecdsa_signature secp self sig pubkey script_code sigversion)
  check_schnorr_signature sig pubkey sigversion exec_data :=
    match check_schnorr_signature secp self sig pubkey sigversion exec_data with
    | .ok (.ok ()) => .ok ()
    | .ok (.error e) => .error (e.getD .UnknownError)
    | .error _ => .error .UnknownError
  check_lock_time lock_time := answer (check_lock_time self lock_time)
  check_sequence sequence := answer (check_sequence self sequence)

def SignatureChecker.to_vm : SignatureChecker → vm.SignatureChecker
  | .TransactionSignatureChecker tx input_index amount precomputed =>
    node_checker secp ⟨tx, input_index, amount, .new secp.hashes precomputed.tx precomputed.spent_outputs⟩
  | .BaseSignatureChecker => vm.BaseSignatureChecker

def error_name (e : ScriptError) : String := ((reprStr e).splitOn ".").getLastD ""

/-- The verdict on an input, with the error. -/
def run_verify_script (script_sig script_pubkey : Script) (witness : Witness) (flags : UInt32)
    (checker : SignatureChecker) : Bool × String :=
  match vm.verify_script secp.toCrypto (checker.to_vm secp) flags script_sig script_pubkey witness with
  | .ok () => (true, "Ok")
  | .error (.invalid e) => (false, error_name e)
  | .error (.panic _) => (false, "")

end qubitcoin.script_check

namespace qubitcoin

def Env.with_interpreter (env : Env) (secp : sign.Secp256k1) : Env :=
  { env with verify_script := script_check.run_verify_script secp }

end qubitcoin
