import Qubitcoin.Script.Eval

/-! `qubitcoin-script/interpreter.rs`: `verify_script`, and the witness programs with the taproot
    commitments. -/

open qubitcoin script transaction

namespace qubitcoin.interpreter.vm

def ANNEX_TAG : UInt8 := 0x50
def TAPROOT_LEAF_MASK : UInt8 := 0xfe
def TAPROOT_LEAF_TAPSCRIPT : UInt8 := 0xc0
def TAPROOT_CONTROL_BASE_SIZE : Nat := 33
def TAPROOT_CONTROL_NODE_SIZE : Nat := 32
def TAPROOT_CONTROL_MAX_NODE_COUNT : Nat := 128
def TAPROOT_CONTROL_MAX_SIZE : Nat :=
  TAPROOT_CONTROL_BASE_SIZE + TAPROOT_CONTROL_NODE_SIZE * TAPROOT_CONTROL_MAX_NODE_COUNT
def VALIDATION_WEIGHT_OFFSET : Int := 50

/-- The bytes of `TapLeaf`, `TapBranch` and `TapTweak`. -/
def TAP_LEAF : List UInt8 := [0x54, 0x61, 0x70, 0x4c, 0x65, 0x61, 0x66]
def TAP_BRANCH : List UInt8 := [0x54, 0x61, 0x70, 0x42, 0x72, 0x61, 0x6e, 0x63, 0x68]
def TAP_TWEAK : List UInt8 := [0x54, 0x61, 0x70, 0x54, 0x77, 0x65, 0x61, 0x6b]

/-- An `OP_SUCCESSx` of tapscript. -/
def is_op_success (opcode : UInt8) : Bool :=
  opcode == 80 || opcode == 98 || decide (126 ≤ opcode ∧ opcode ≤ 129) || decide (131 ≤ opcode ∧ opcode ≤ 134) ||
    decide (137 ≤ opcode ∧ opcode ≤ 138) || decide (141 ≤ opcode ∧ opcode ≤ 142) ||
    decide (149 ≤ opcode ∧ opcode ≤ 153) || decide (187 ≤ opcode ∧ opcode ≤ 254)

/-- The scan for an `OP_SUCCESSx`. Every opcode is at least one byte long, so that the fuel does
    not run out. -/
def has_op_success (script : Script) : Nat → Nat → Run Bool
  | 0, _ => pure false
  | fuel + 1, pc =>
    if pc < script.len then
      match script.get_op pc with
      | none => fail .BadOpcode
      | some (opcode, _, next_pc) => if is_op_success opcode then pure true else has_op_success script fuel next_pc
    else pure false

def compute_witness_size (stack : List (List UInt8)) : Nat :=
  (write_compact_size stack.length).length +
    (stack.map fun item => (write_compact_size item.length).length + item.length).sum

section

variable (crypto : Crypto)

def tagged_hash (tag msg : List UInt8) : List UInt8 :=
  let tag_hash := (crypto.sha256_hash tag).val
  (crypto.sha256_hash (tag_hash ++ tag_hash ++ msg)).val

def compute_tapleaf_hash (leaf_version : UInt8) (script : List UInt8) : List UInt8 :=
  tagged_hash crypto TAP_LEAF ([leaf_version] ++ write_compact_size script.length ++ script)

/-- The hash of two nodes, the smaller one first. -/
def compute_tapbranch_hash (a b : List UInt8) : List UInt8 :=
  tagged_hash crypto TAP_BRANCH (if a < b then a ++ b else b ++ a)

/-- The root over the path in a control block. -/
def compute_taproot_merkle_root (control tapleaf_hash : List UInt8) : List UInt8 :=
  let path_len := (control.length - TAPROOT_CONTROL_BASE_SIZE) / TAPROOT_CONTROL_NODE_SIZE
  (List.range path_len).foldl (fun k i => compute_tapbranch_hash crypto k
    ((control.drop (TAPROOT_CONTROL_BASE_SIZE + TAPROOT_CONTROL_NODE_SIZE * i)).take TAPROOT_CONTROL_NODE_SIZE)) tapleaf_hash

/-- The output key is the internal key of the control block, tweaked by the root. -/
def verify_taproot_commitment (control program tapleaf_hash : List UInt8) : Bool :=
  match crypto.x_only_from_slice ((control.drop 1).take (TAPROOT_CONTROL_BASE_SIZE - 1)),
      crypto.x_only_from_slice program with
  | some internal_key, some output_key =>
    let merkle_root := compute_taproot_merkle_root crypto control tapleaf_hash
    match crypto.scalar_from_be_bytes (tagged_hash crypto TAP_TWEAK (internal_key ++ merkle_root)) with
    | some tweak_scalar => crypto.tweak_add_check internal_key output_key (control.getD 0 0 &&& 1) tweak_scalar
    | none => false
  | _, _ => false

/-- A control block has a key and a path of at most 128 nodes. -/
def valid_control_size (control : List UInt8) : Bool :=
  !(decide (control.length < TAPROOT_CONTROL_BASE_SIZE) || decide (control.length > TAPROOT_CONTROL_MAX_SIZE) ||
    (control.length - TAPROOT_CONTROL_BASE_SIZE) % TAPROOT_CONTROL_NODE_SIZE != 0)

/-- The items of a witness without its annex, the last one first, and the execution data. -/
def take_annex (items : List (List UInt8)) : List (List UInt8) × ScriptExecutionData :=
  match items.reverse with
  | (tag :: annex) :: first :: rest =>
    if tag = ANNEX_TAG then
      (first :: rest, { ScriptExecutionData.default with
        annex_init := true
        annex_present := true
        annex_hash := (crypto.sha256_hash (write_compact_size (annex.length + 1) ++ tag :: annex)).val })
    else ((tag :: annex) :: first :: rest, { ScriptExecutionData.default with annex_init := true })
  | items => (items, { ScriptExecutionData.default with annex_init := true })

end

section

variable (crypto : Crypto) (checker : SignatureChecker) (flags : UInt32)

def execute_witness_script (stack : Stack) (exec_script : Script) (sigversion : SigVersion)
    (exec_data : ScriptExecutionData) : Run Unit := do
  ensure (stack.all fun item => decide (item.length ≤ MAX_SCRIPT_ELEMENT_SIZE)) .PushSize
  ensure (!(sigversion == .Tapscript && decide (stack.length > MAX_STACK_SIZE))) .StackSize
  let (stack, _) ← eval_script crypto checker flags sigversion exec_script stack exec_data
  ensure (stack.length == 1) .CleanStack
  let value ← stack.top 1
  ensure (cast_to_bool value) .EvalFalse

/-- A script of a taproot output, with what is on its stack. -/
def verify_tapscript (witness : Witness) (wit_program control script : List UInt8) (stack : Stack)
    (exec_data : ScriptExecutionData) : Run Unit := do
  ensure (valid_control_size control) .TaprootWrongControlSize
  let leaf_version := control.getD 0 0 &&& TAPROOT_LEAF_MASK
  let tapleaf_hash := compute_tapleaf_hash crypto leaf_version script
  ensure (verify_taproot_commitment crypto control wit_program tapleaf_hash) .WitnessProgramMismatch
  let exec_data := { exec_data with tapleaf_hash, tapleaf_hash_init := true }
  if leaf_version = TAPROOT_LEAF_TAPSCRIPT then do
    let success ← has_op_success ⟨script⟩ script.length 0
    if success then ensure (!contains flags ScriptVerifyFlags.DISCOURAGE_OP_SUCCESS) .DiscourageOpSuccess
    else
      execute_witness_script crypto checker flags stack ⟨script⟩ .Tapscript { exec_data with
        validation_weight_left := compute_witness_size witness.stack + VALIDATION_WEIGHT_OFFSET
        validation_weight_left_init := true }
  else
    ensure (!contains flags ScriptVerifyFlags.DISCOURAGE_UPGRADABLE_TAPROOT_VERSION) .DiscourageUpgradableTaprootVersion

/-- A taproot output, spent by its key or by a script. -/
def verify_taproot (witness : Witness) (wit_program : List UInt8) : Run Unit := do
  ensure (!witness.stack.isEmpty) .WitnessProgramWitnessEmpty
  match take_annex crypto witness.stack with
  | ([], _) => .error (.panic .index_out_of_bounds)
  | ([sig], exec_data) => (checker.check_schnorr_signature sig wit_program .Taproot exec_data).mapError .invalid
  | (control :: script :: stack, exec_data) =>
    verify_tapscript crypto checker flags witness wit_program control script stack exec_data

def verify_witness_program (witness : Witness) (wit_version : Nat) (wit_program : List UInt8) (is_p2sh : Bool) :
    Run Unit :=
  if wit_version = 0 then
    if wit_program.length = 32 then
      match witness.stack.reverse with
      | [] => fail .WitnessProgramWitnessEmpty
      | script_bytes :: stack => do
        ensure ((crypto.sha256_hash script_bytes).val == wit_program) .WitnessProgramMismatch
        execute_witness_script crypto checker flags stack ⟨script_bytes⟩ .WitnessV0 .default
    else if wit_program.length = 20 then do
      ensure (witness.stack.length == 2) .WitnessProgramMismatch
      execute_witness_script crypto checker flags witness.stack.reverse (build_p2pkh wit_program) .WitnessV0 .default
    else fail .WitnessProgramWrongLength
  else if wit_version = 1 ∧ wit_program.length = 32 ∧ is_p2sh = false then
    if contains flags ScriptVerifyFlags.TAPROOT then verify_taproot crypto checker flags witness wit_program
    else pure ()
  else
    ensure (!contains flags ScriptVerifyFlags.DISCOURAGE_UPGRADABLE_WITNESS_PROGRAM) .DiscourageUpgradableWitnessProgram

/-- The top of the stack is there and true. -/
def check_result (stack : Stack) : Run Unit := do
  ensure (!stack.isEmpty) .EvalFalse
  let value ← stack.top 1
  ensure (cast_to_bool value) .EvalFalse

def keep_one (stack : Stack) : Stack := stack.drop (stack.length - 1)

/-- The bare witness program of an output: whether there is one, and the stack. -/
def verify_bare_program (script_sig script_pubkey : Script) (witness : Witness) (stack : Stack) : Run (Bool × Stack) :=
  if contains flags ScriptVerifyFlags.WITNESS then
    match script_pubkey.is_witness_program with
    | some (wit_version, wit_program) => do
      ensure script_sig.data.isEmpty .WitnessMalleated
      verify_witness_program crypto checker flags witness wit_version wit_program false
      pure (true, keep_one stack)
    | none => pure (false, stack)
  else pure (false, stack)

/-- The witness program of a redeem script. -/
def verify_nested_program (script_sig : Script) (serialized : List UInt8) (witness : Witness) (had_witness : Bool)
    (stack : Stack) : Run (Bool × Stack) :=
  if contains flags ScriptVerifyFlags.WITNESS then
    match (Script.mk serialized).is_witness_program with
    | some (wit_version, wit_program) => do
      ensure (script_sig == Script.new.push_data serialized) .WitnessMalleatedP2sh
      verify_witness_program crypto checker flags witness wit_version wit_program true
      pure (true, keep_one stack)
    | none => pure (had_witness, stack)
  else pure (had_witness, stack)

/-- The last two checks, of the stack and of an unused witness. -/
def check_clean (witness : Witness) (had_witness : Bool) (stack : Stack) : Run Unit := do
  only_if (contains flags ScriptVerifyFlags.CLEANSTACK) (ensure (stack.length == 1) .CleanStack)
  only_if (contains flags ScriptVerifyFlags.WITNESS) (ensure (had_witness || witness.is_null) .WitnessUnexpected)

/-- Pay to script hash: run the top of the stack that `script_sig` has left. -/
def verify_p2sh (script_sig : Script) (witness : Witness) (had_witness : Bool) (stack_copy : Stack) : Run Unit := do
  ensure script_sig.is_push_only .SigPushOnly
  ensure (!stack_copy.isEmpty) .EvalFalse
  let serialized ← stack_copy.top 1
  let (stack, _) ← eval_script crypto checker flags .Base ⟨serialized⟩ stack_copy.pop .default
  check_result stack
  let (had_witness, stack) ← verify_nested_program crypto checker flags script_sig serialized witness had_witness stack
  check_clean flags witness had_witness stack

def verify_script (script_sig script_pubkey : Script) (witness : Witness) : Run Unit := do
  ensure (!(contains flags ScriptVerifyFlags.SIGPUSHONLY && !script_sig.is_push_only)) .SigPushOnly
  let (stack_copy, _) ← eval_script crypto checker flags .Base script_sig [] .default
  let (stack, _) ← eval_script crypto checker flags .Base script_pubkey stack_copy .default
  check_result stack
  let (had_witness, stack) ← verify_bare_program crypto checker flags script_sig script_pubkey witness stack
  if contains flags ScriptVerifyFlags.P2SH && script_pubkey.is_p2sh then
    verify_p2sh crypto checker flags script_sig witness had_witness stack_copy
  else check_clean flags witness had_witness stack

end

end qubitcoin.interpreter.vm
