import Qubitcoin.Script.Stack

/-! `qubitcoin-script/interpreter.rs`: what each opcode does to the state of the evaluation. -/

open qubitcoin.script

namespace qubitcoin.interpreter.vm

def OP_NOP : UInt8 := 0x61

/-- The opcodes that only rearrange the stack, or push its depth or the size of its top. -/
inductive StackOp where
  | Op2Drop | Op2Dup | Op3Dup | Op2Over | Op2Rot | Op2Swap | OpIfDup | OpDepth | OpDrop | OpDup | OpNip | OpOver
  | OpRot | OpSwap | OpTuck | OpSize
  deriving DecidableEq, Repr

inductive UnaryOp where
  | Op1Add | Op1Sub | OpNegate | OpAbs | OpNot | Op0NotEqual
  deriving DecidableEq, Repr

inductive BinaryOp where
  | OpAdd | OpSub | OpBoolAnd | OpBoolOr | OpNumEqual | OpNumNotEqual | OpLessThan | OpGreaterThan | OpLessThanOrEqual
  | OpGreaterThanOrEqual | OpMin | OpMax
  deriving DecidableEq, Repr

inductive HashOp where
  | OpRipemd160 | OpSha1 | OpSha256 | OpHash160 | OpHash256
  deriving DecidableEq, Repr

/-- The arms of the evaluator. An argument `verify` tells the two opcodes of an arm apart:
    with it the result is checked and not left on the stack. -/
inductive Operation where
  | number (n : Int)
  | OpNop
  | OpCheckLockTimeVerify
  | OpCheckSequenceVerify
  | upgradable_nop
  | OpIf (negated : Bool)
  | OpElse
  | OpEndIf
  | OpVerify
  | OpReturn
  | OpToAltStack
  | OpFromAltStack
  | stack (op : StackOp)
  | OpPick (roll : Bool)
  | OpEqual (verify : Bool)
  | unary (op : UnaryOp)
  | binary (op : BinaryOp) (verify : Bool)
  | OpWithin
  | hash (op : HashOp)
  | OpCodeSeparator
  | OpCheckSig (verify : Bool)
  | OpCheckSigAdd
  | OpCheckMultiSig (verify : Bool)
  | bad
  deriving DecidableEq, Repr

def Operation.from_u8 (opcode : UInt8) : Operation :=
  if 0x51 ≤ opcode ∧ opcode ≤ 0x60 then .number (opcode.toNat - 0x51 + 1)
  else if opcode = 0xb0 ∨ 0xb3 ≤ opcode ∧ opcode ≤ 0xb9 then .upgradable_nop
  else
    match opcode with
    | 0x4f => .number (-1)
    | 0x61 => .OpNop
    | 0x63 => .OpIf false
    | 0x64 => .OpIf true
    | 0x67 => .OpElse
    | 0x68 => .OpEndIf
    | 0x69 => .OpVerify
    | 0x6a => .OpReturn
    | 0x6b => .OpToAltStack
    | 0x6c => .OpFromAltStack
    | 0x6d => .stack .Op2Drop
    | 0x6e => .stack .Op2Dup
    | 0x6f => .stack .Op3Dup
    | 0x70 => .stack .Op2Over
    | 0x71 => .stack .Op2Rot
    | 0x72 => .stack .Op2Swap
    | 0x73 => .stack .OpIfDup
    | 0x74 => .stack .OpDepth
    | 0x75 => .stack .OpDrop
    | 0x76 => .stack .OpDup
    | 0x77 => .stack .OpNip
    | 0x78 => .stack .OpOver
    | 0x79 => .OpPick false
    | 0x7a => .OpPick true
    | 0x7b => .stack .OpRot
    | 0x7c => .stack .OpSwap
    | 0x7d => .stack .OpTuck
    | 0x82 => .stack .OpSize
    | 0x87 => .OpEqual false
    | 0x88 => .OpEqual true
    | 0x8b => .unary .Op1Add
    | 0x8c => .unary .Op1Sub
    | 0x8f => .unary .OpNegate
    | 0x90 => .unary .OpAbs
    | 0x91 => .unary .OpNot
    | 0x92 => .unary .Op0NotEqual
    | 0x93 => .binary .OpAdd false
    | 0x94 => .binary .OpSub false
    | 0x9a => .binary .OpBoolAnd false
    | 0x9b => .binary .OpBoolOr false
    | 0x9c => .binary .OpNumEqual false
    | 0x9d => .binary .OpNumEqual true
    | 0x9e => .binary .OpNumNotEqual false
    | 0x9f => .binary .OpLessThan false
    | 0xa0 => .binary .OpGreaterThan false
    | 0xa1 => .binary .OpLessThanOrEqual false
    | 0xa2 => .binary .OpGreaterThanOrEqual false
    | 0xa3 => .binary .OpMin false
    | 0xa4 => .binary .OpMax false
    | 0xa5 => .OpWithin
    | 0xa6 => .hash .OpRipemd160
    | 0xa7 => .hash .OpSha1
    | 0xa8 => .hash .OpSha256
    | 0xa9 => .hash .OpHash160
    | 0xaa => .hash .OpHash256
    | 0xab => .OpCodeSeparator
    | 0xac => .OpCheckSig false
    | 0xad => .OpCheckSig true
    | 0xae => .OpCheckMultiSig false
    | 0xaf => .OpCheckMultiSig true
    | 0xb1 => .OpCheckLockTimeVerify
    | 0xb2 => .OpCheckSequenceVerify
    | 0xba => .OpCheckSigAdd
    | _ => .bad

/-- The state of the evaluation. `op_count` and `opcode_pos` are `u32`. -/
structure State where
  pc : Nat
  stack : Stack
  altstack : Stack
  vf_exec : ConditionStack
  op_count : Nat
  pbegincodehash : Nat
  opcode_pos : Nat
  exec_data : ScriptExecutionData
  deriving DecidableEq, Repr

def StackOp.run (stack : Stack) : StackOp → Run Stack
  | .Op2Drop => do
    stack.need 2
    pure stack.pop.pop
  | .Op2Dup => do
    stack.need 2
    let v1 ← stack.top 2
    let v2 ← stack.top 1
    pure (v2 :: v1 :: stack)
  | .Op3Dup => do
    stack.need 3
    let v1 ← stack.top 3
    let v2 ← stack.top 2
    let v3 ← stack.top 1
    pure (v3 :: v2 :: v1 :: stack)
  | .Op2Over => do
    stack.need 4
    let v1 ← stack.top 4
    let v2 ← stack.top 3
    pure (v2 :: v1 :: stack)
  | .Op2Rot => do
    stack.need 6
    let v1 ← stack.top 6
    let v2 ← stack.top 5
    let stack ← stack.erase_top_range 6 4
    pure (v2 :: v1 :: stack)
  | .Op2Swap => do
    stack.need 4
    let stack ← stack.swap_top 4 2
    stack.swap_top 3 1
  | .OpIfDup => do
    stack.need 1
    let vch ← stack.top 1
    pure (if cast_to_bool vch then vch :: stack else stack)
  | .OpDepth => pure (ScriptNum.encode_i64 stack.length :: stack)
  | .OpDrop => do
    stack.need 1
    pure stack.pop
  | .OpDup => do
    stack.need 1
    let vch ← stack.top 1
    pure (vch :: stack)
  | .OpNip => do
    stack.need 2
    stack.erase_top 2
  | .OpOver => do
    stack.need 2
    let vch ← stack.top 2
    pure (vch :: stack)
  | .OpRot => do
    stack.need 3
    let stack ← stack.swap_top 3 2
    stack.swap_top 2 1
  | .OpSwap => do
    stack.need 2
    stack.swap_top 2 1
  | .OpTuck => do
    stack.need 2
    let vch ← stack.top 1
    stack.insert_top 2 vch
  | .OpSize => do
    stack.need 1
    let vch ← stack.top 1
    pure (ScriptNum.encode_i64 vch.length :: stack)

def op_pick (require_minimal roll : Bool) (stack : Stack) : Run Stack := do
  stack.need 2
  let n_val ← stack.top 1
  let n := ScriptNum.getint (← stack_to_script_num n_val require_minimal DEFAULT_MAX_NUM_SIZE)
  let stack := stack.pop
  ensure (decide (0 ≤ n ∧ n.toNat < stack.length)) .InvalidStackOperation
  let vch ← stack.top (n.toNat + 1)
  let stack ← (if roll then stack.erase_top (n.toNat + 1) else pure stack)
  pure (vch :: stack)

/-- Leave a result on the stack or, for an opcode with `VERIFY`, check it. -/
def push_result (verify : Bool) (result : Bool) (e : ScriptError) (stack : Stack) : Run Stack :=
  if verify then do
    ensure result e
    pure stack
  else pure (bool_value result :: stack)

def op_equal (verify : Bool) (stack : Stack) : Run Stack := do
  stack.need 2
  let v1 ← stack.top 2
  let v2 ← stack.top 1
  push_result verify (v1 == v2) .EqualVerify stack.pop.pop

def UnaryOp.apply (bn : Int) : UnaryOp → Run Int
  | .Op1Add => checked .i64 (bn + 1)
  | .Op1Sub => checked .i64 (bn - 1)
  | .OpNegate => checked .i64 (-bn)
  | .OpAbs => if bn < 0 then checked .i64 (-bn) else pure bn
  | .OpNot => pure (if bn = 0 then 1 else 0)
  | .Op0NotEqual => pure (if bn ≠ 0 then 1 else 0)

def op_unary (require_minimal : Bool) (op : UnaryOp) (stack : Stack) : Run Stack := do
  stack.need 1
  let val ← stack.top 1
  let bn ← stack_to_script_num val require_minimal DEFAULT_MAX_NUM_SIZE
  let bn ← op.apply bn
  pure (ScriptNum.encode_i64 bn :: stack.pop)

def BinaryOp.apply (bn1 bn2 : Int) : BinaryOp → Run Int
  | .OpAdd => checked .i64 (bn1 + bn2)
  | .OpSub => checked .i64 (bn1 - bn2)
  | .OpBoolAnd => pure (if bn1 ≠ 0 ∧ bn2 ≠ 0 then 1 else 0)
  | .OpBoolOr => pure (if bn1 ≠ 0 ∨ bn2 ≠ 0 then 1 else 0)
  | .OpNumEqual => pure (if bn1 = bn2 then 1 else 0)
  | .OpNumNotEqual => pure (if bn1 ≠ bn2 then 1 else 0)
  | .OpLessThan => pure (if bn1 < bn2 then 1 else 0)
  | .OpGreaterThan => pure (if bn1 > bn2 then 1 else 0)
  | .OpLessThanOrEqual => pure (if bn1 ≤ bn2 then 1 else 0)
  | .OpGreaterThanOrEqual => pure (if bn1 ≥ bn2 then 1 else 0)
  | .OpMin => pure (if bn1 < bn2 then bn1 else bn2)
  | .OpMax => pure (if bn1 > bn2 then bn1 else bn2)

def op_binary (require_minimal : Bool) (op : BinaryOp) (verify : Bool) (stack : Stack) : Run Stack := do
  stack.need 2
  let v1 ← stack.top 2
  let v2 ← stack.top 1
  let bn1 ← stack_to_script_num v1 require_minimal DEFAULT_MAX_NUM_SIZE
  let bn2 ← stack_to_script_num v2 require_minimal DEFAULT_MAX_NUM_SIZE
  let bn ← op.apply bn1 bn2
  let stack : Stack := ScriptNum.encode_i64 bn :: stack.pop.pop
  if verify then do
    let result ← stack.top 1
    ensure (cast_to_bool result) .NumEqualVerify
    pure stack.pop
  else pure stack

def op_within (require_minimal : Bool) (stack : Stack) : Run Stack := do
  stack.need 3
  let v1 ← stack.top 3
  let v2 ← stack.top 2
  let v3 ← stack.top 1
  let bn1 ← stack_to_script_num v1 require_minimal DEFAULT_MAX_NUM_SIZE
  let bn2 ← stack_to_script_num v2 require_minimal DEFAULT_MAX_NUM_SIZE
  let bn3 ← stack_to_script_num v3 require_minimal DEFAULT_MAX_NUM_SIZE
  pure (bool_value (decide (bn2 ≤ bn1 ∧ bn1 < bn3)) :: stack.pop.pop.pop)

def HashOp.digest (crypto : Crypto) (vch : List UInt8) : HashOp → List UInt8
  | .OpRipemd160 => (crypto.ripemd160_hash vch).val
  | .OpSha1 => (crypto.sha1_hash vch).val
  | .OpSha256 => (crypto.sha256_hash vch).val
  | .OpHash160 => (crypto.hash160 vch).val
  | .OpHash256 => (crypto.hash256 vch).val

def op_hash (crypto : Crypto) (op : HashOp) (stack : Stack) : Run Stack := do
  stack.need 1
  let vch ← stack.top 1
  pure (op.digest crypto vch :: stack.pop)

def op_verify (stack : Stack) : Run Stack := do
  stack.need 1
  let vch ← stack.top 1
  ensure (cast_to_bool vch) .Verify
  pure stack.pop

/-- The operand of `OP_CHECKLOCKTIMEVERIFY` and `OP_CHECKSEQUENCEVERIFY`, of five bytes at
    most; it stays on the stack. -/
def lock_operand (require_minimal : Bool) (stack : Stack) : Run Int := do
  stack.need 1
  let vch ← stack.top 1
  let n ← stack_to_script_num vch require_minimal 5
  ensure (decide (0 ≤ n)) .NegativeLocktime
  pure n

section

variable (checker : SignatureChecker) (flags : UInt32)

def require_minimal : Bool := contains flags ScriptVerifyFlags.MINIMALDATA

def op_check_lock_time_verify (stack : Stack) : Run Unit :=
  if contains flags ScriptVerifyFlags.CHECKLOCKTIMEVERIFY then do
    let lock_time ← lock_operand (require_minimal flags) stack
    ensure (checker.check_lock_time lock_time) .UnsatisfiedLocktime
  else pure ()

/-- `n as u32` has the disable flag. -/
def sequence_disabled (n : Int) : Bool := UInt32.ofInt n &&& 0x80000000 != 0

def op_check_sequence_verify (stack : Stack) : Run Unit :=
  if contains flags ScriptVerifyFlags.CHECKSEQUENCEVERIFY then do
    let sequence ← lock_operand (require_minimal flags) stack
    if sequence_disabled sequence then pure ()
    else ensure (checker.check_sequence sequence) .UnsatisfiedLocktime
  else pure ()

end

/-- How many copies of the pattern stand one after the other at the start. -/
def repeats (pattern : List UInt8) : Nat → List UInt8 → Nat
  | 0, _ => 0
  | fuel + 1, data => if pattern.isPrefixOf data then repeats pattern fuel (data.drop pattern.length) + 1 else 0

/-- The loop of `find_and_delete`: what is kept, and the number of copies removed. Every
    operation is at least one byte long. -/
def find_and_delete_loop (script : Script) (pattern : List UInt8) : Nat → (pos copy_start : Nat) → List UInt8 × Nat
  | 0, _, copy_start => (script.data.drop copy_start, 0)
  | fuel + 1, pos, copy_start =>
    match script.get_op pos with
    | none => (script.data.drop copy_start, 0)
    | some (_, _, new_pos) =>
      let found := repeats pattern script.len (script.data.drop pos)
      let skipped := pos + found * pattern.length
      let (kept, more) := find_and_delete_loop script pattern fuel (max skipped new_pos) skipped
      ((script.data.drop copy_start).take (pos - copy_start) ++ kept, found + more)

/-- Remove the pattern wherever an operation starts with it. -/
def find_and_delete (script : Script) (pattern : List UInt8) : Script × Nat :=
  if pattern.isEmpty then (script, 0)
  else
    let (kept, n_found) := find_and_delete_loop script pattern (script.len + 1) 0 0
    if n_found > 0 then (⟨kept⟩, n_found) else (script, 0)

section

variable (crypto : Crypto) (checker : SignatureChecker) (flags : UInt32) (sigversion : SigVersion) (script : Script)

/-- The part of the script from the last `OP_CODESEPARATOR` on. -/
def script_code (pbegincodehash : Nat) : Run Script :=
  if pbegincodehash ≤ script.len then .ok ⟨script.data.drop pbegincodehash⟩ else .error (.panic .index_out_of_bounds)

/-- Before segwit a signature does not sign itself. -/
def drop_signature (script_code : Script) (vch_sig : List UInt8) : Run Script :=
  if sigversion = .Base then do
    let (script_code, found) := find_and_delete script_code (Script.new.push_data vch_sig).data
    ensure (!(decide (found > 0) && contains flags ScriptVerifyFlags.CONST_SCRIPTCODE)) .SigFindAndDelete
    pure script_code
  else pure script_code

def checksig_ecdsa (state : State) (vch_sig vch_pubkey : List UInt8) : Run Bool := do
  let code ← script_code script state.pbegincodehash
  let code ← drop_signature flags sigversion code vch_sig
  check_signature_encoding crypto flags vch_sig
  check_pubkey_encoding flags vch_pubkey sigversion
  let f_success := checker.check_ecdsa_signature vch_sig vch_pubkey code sigversion
  ensure (!(!f_success && contains flags ScriptVerifyFlags.NULLFAIL && !vch_sig.isEmpty)) .SigNullFail
  pure f_success

def VALIDATION_WEIGHT_PER_SIGOP_PASSED : Int := 50

def charge_weight (exec_data : ScriptExecutionData) : Run ScriptExecutionData :=
  if exec_data.validation_weight_left_init then do
    let validation_weight_left ← checked .i64 (exec_data.validation_weight_left - VALIDATION_WEIGHT_PER_SIGOP_PASSED)
    ensure (decide (0 ≤ validation_weight_left)) .TapscriptValidationWeight
    pure { exec_data with validation_weight_left }
  else pure exec_data

/-- The key of a tapscript signature: none is an error, an unknown kind of key is not. -/
def check_tapscript_key (exec_data : ScriptExecutionData) (vch_sig vch_pubkey : List UInt8) : Run Unit :=
  if vch_pubkey.isEmpty then fail .TapscriptEmptyPubkey
  else if vch_pubkey.length = 32 then
    only_if (!vch_sig.isEmpty)
      ((checker.check_schnorr_signature vch_sig vch_pubkey sigversion exec_data).mapError .invalid)
  else ensure (!contains flags ScriptVerifyFlags.DISCOURAGE_UPGRADABLE_PUBKEYTYPE) .DiscourageUpgradablePubkeyType

/-- A signature check of tapscript. A signature that is not empty must pass; an empty one is
    the answer no. -/
def checksig_tapscript (exec_data : ScriptExecutionData) (vch_sig vch_pubkey : List UInt8) :
    Run (Bool × ScriptExecutionData) := do
  let exec_data ← (if vch_sig.isEmpty then pure exec_data else charge_weight exec_data)
  check_tapscript_key checker flags sigversion exec_data vch_sig vch_pubkey
  pure (!vch_sig.isEmpty, exec_data)

/-- The signature check of a version. Taproot key paths run no script; with their version the
    check passes. -/
def eval_checksig (state : State) (vch_sig vch_pubkey : List UInt8) : Run (Bool × ScriptExecutionData) :=
  if sigversion.before_taproot then do
    let f_success ← checksig_ecdsa crypto checker flags sigversion script state vch_sig vch_pubkey
    pure (f_success, state.exec_data)
  else if sigversion = .Tapscript then checksig_tapscript checker flags sigversion state.exec_data vch_sig vch_pubkey
  else pure (true, state.exec_data)

def op_checksig (verify : Bool) (state : State) : Run State := do
  state.stack.need 2
  let vch_sig ← state.stack.top 2
  let vch_pubkey ← state.stack.top 1
  let (f_success, exec_data) ← eval_checksig crypto checker flags sigversion script state vch_sig vch_pubkey
  let stack ← push_result verify f_success .CheckSigVerify state.stack.pop.pop
  pure { state with stack, exec_data }

def op_checksigadd (state : State) : Run State := do
  ensure (!sigversion.before_taproot) .BadOpcode
  state.stack.need 3
  let sig ← state.stack.top 3
  let num_val ← state.stack.top 2
  let pubkey ← state.stack.top 1
  let num ← stack_to_script_num num_val (require_minimal flags) DEFAULT_MAX_NUM_SIZE
  let (success, exec_data) ← checksig_tapscript checker flags sigversion state.exec_data sig pubkey
  let result ← checked .i64 (num + (if success then 1 else 0))
  pure { state with stack := ScriptNum.encode_i64 result :: state.stack.pop.pop.pop, exec_data }

/-- `(stack.size() as i32) < i` is an error of the script. -/
def need_i32 (stack : Stack) (i : Nat) : Run Unit :=
  ensure (decide ((i : Int) ≤ size_as_i32 stack.length)) .InvalidStackOperation

/-- A count on the stack, between zero and a bound. -/
def multisig_count (stack : Stack) (i bound : Nat) (e : ScriptError) : Run Nat := do
  let val ← stack.top i
  let n := ScriptNum.getint (← stack_to_script_num val (require_minimal flags) DEFAULT_MAX_NUM_SIZE)
  ensure (decide (0 ≤ n ∧ n ≤ bound)) e
  pure n.toNat

/-- Drop the signatures from the script code, from position `isig` of the stack on. -/
def drop_signatures (stack : Stack) : (count isig : Nat) → Script → Run Script
  | 0, _, code => pure code
  | count + 1, isig, code => do
    let vch_sig ← stack.top isig
    let code ← drop_signature flags sigversion code vch_sig
    drop_signatures stack count (isig + 1) code

/-- Match the signatures with the keys, in order. There are never fewer keys left than
    signatures, so that the second case is not met. -/
def match_signatures (stack : Stack) (code : Script) : (n_keys_remaining : Nat) → (isig ikey n_sigs_count : Nat) → Run Bool
  | _, _, _, 0 => pure true
  | 0, _, _, _ + 1 => .error (.panic .index_out_of_bounds)
  | n_keys_remaining + 1, isig, ikey, n_sigs_count + 1 => do
    let vch_sig ← stack.top isig
    let vch_pubkey ← stack.top ikey
    check_signature_encoding crypto flags vch_sig
    check_pubkey_encoding flags vch_pubkey sigversion
    let f_ok := checker.check_ecdsa_signature vch_sig vch_pubkey code sigversion
    let isig := if f_ok then isig + 1 else isig
    let n_sigs_count := if f_ok then n_sigs_count else n_sigs_count + 1
    if n_sigs_count > n_keys_remaining then pure false
    else match_signatures stack code n_keys_remaining isig (ikey + 1) n_sigs_count

/-- Pop the arguments. After the counts and the keys come the signatures: those of a failed
    check must be empty. -/
def clean_up (f_success : Bool) : (count ikey2 : Nat) → Stack → Run Stack
  | 0, _, stack => pure stack
  | count + 1, ikey2, stack => do
    only_if (!f_success && contains flags ScriptVerifyFlags.NULLFAIL && ikey2 == 0) do
      let value ← stack.top 1
      ensure value.isEmpty .SigNullFail
    clean_up f_success count (ikey2 - 1) stack.pop

def op_checkmultisig (verify : Bool) (state : State) : Run State := do
  ensure (!decide (sigversion = .Tapscript)) .TapscriptCheckMultiSig
  need_i32 state.stack 1
  let n_keys_count ← multisig_count flags state.stack 1 MAX_PUBKEYS_PER_MULTISIG .PubkeyCount
  let op_count ← add_u32 state.op_count n_keys_count
  ensure (decide (op_count ≤ MAX_OPS_PER_SCRIPT)) .OpCount
  let i := 2 + n_keys_count
  need_i32 state.stack i
  let n_sigs_count ← multisig_count flags state.stack i n_keys_count .SigCount
  let isig := i + 1
  let i := isig + n_sigs_count
  need_i32 state.stack i
  let code ← script_code script state.pbegincodehash
  let code ← drop_signatures flags sigversion state.stack n_sigs_count isig code
  let f_success ← match_signatures crypto checker flags sigversion state.stack code n_keys_count isig 2 n_sigs_count
  let stack ← clean_up flags f_success (i - 1) (n_keys_count + 2) state.stack
  stack.need 1
  let dummy ← stack.top 1
  ensure (!(contains flags ScriptVerifyFlags.NULLDUMMY && !dummy.isEmpty)) .SigNullDummy
  let stack ← push_result verify f_success .CheckMultiSigVerify stack.pop
  pure { state with stack, op_count }

end

end qubitcoin.interpreter.vm
