import Qubitcoin.Script.Operations

/-! `qubitcoin-script/interpreter.rs`: `eval_script`, the loop over the opcodes. -/

open qubitcoin.script

namespace qubitcoin.interpreter.vm

variable (crypto : Crypto) (checker : SignatureChecker) (flags : UInt32) (sigversion : SigVersion) (script : Script)

/-- What `OP_IF` of segwit scripts wants of its argument: nothing, or the byte one. -/
def minimal_if (vch : List UInt8) : Bool := !(decide (1 < vch.length) || vch.length == 1 && vch.getD 0 0 != 1)

/-- `OP_IF` and `OP_NOTIF`. In a branch that is not executed they only open another one. -/
def op_if (f_exec negated : Bool) (state : State) : Run State :=
  if f_exec then do
    state.stack.need 1
    let vch ← state.stack.top 1
    ensure (!(sigversion == .Tapscript && !minimal_if vch)) .TapscriptMinimalIf
    ensure (!(sigversion == .WitnessV0 && contains flags ScriptVerifyFlags.MINIMALIF && !minimal_if vch)) .MinimalIf
    let vf_exec ← state.vf_exec.push_back (cast_to_bool vch != negated)
    pure { state with stack := state.stack.pop, vf_exec }
  else do
    let vf_exec ← state.vf_exec.push_back false
    pure { state with vf_exec }

/-- An opcode that leaves all but the stack alone. -/
def on_stack (state : State) (f : Stack → Run Stack) : Run State := do
  let stack ← f state.stack
  pure { state with stack }

def Operation.run (f_exec : Bool) (state : State) : Operation → Run State
  | .number n => pure { state with stack := ScriptNum.encode_i64 n :: state.stack }
  | .OpNop => pure state
  | .OpCheckLockTimeVerify => do
    op_check_lock_time_verify checker flags state.stack
    pure state
  | .OpCheckSequenceVerify => do
    op_check_sequence_verify checker flags state.stack
    pure state
  | .upgradable_nop => do
    ensure (!contains flags ScriptVerifyFlags.DISCOURAGE_UPGRADABLE_NOPS) .DiscourageUpgradableNops
    pure state
  | .OpIf negated => op_if flags sigversion f_exec negated state
  | .OpElse => do
    ensure (!state.vf_exec.empty) .UnbalancedConditional
    let vf_exec ← state.vf_exec.toggle_top
    pure { state with vf_exec }
  | .OpEndIf => do
    ensure (!state.vf_exec.empty) .UnbalancedConditional
    let vf_exec ← state.vf_exec.pop_back
    pure { state with vf_exec }
  | .OpVerify => on_stack state op_verify
  | .OpReturn => fail .OpReturn
  | .OpToAltStack => do
    state.stack.need 1
    let v ← state.stack.top 1
    pure { state with stack := state.stack.pop, altstack := v :: state.altstack }
  | .OpFromAltStack => do
    ensure (decide (1 ≤ state.altstack.length)) .InvalidAltstackOperation
    let v ← state.altstack.top 1
    pure { state with stack := v :: state.stack, altstack := state.altstack.pop }
  | .stack op => on_stack state fun stack => op.run stack
  | .OpPick roll => on_stack state (op_pick (require_minimal flags) roll)
  | .OpEqual verify => on_stack state (op_equal verify)
  | .unary op => on_stack state (op_unary (require_minimal flags) op)
  | .binary op verify => on_stack state (op_binary (require_minimal flags) op verify)
  | .OpWithin => on_stack state (op_within (require_minimal flags))
  | .hash op => on_stack state (op_hash crypto op)
  | .OpCodeSeparator =>
    pure { state with
      pbegincodehash := state.pc
      exec_data := { state.exec_data with codeseparator_pos := state.opcode_pos } }
  | .OpCheckSig verify => op_checksig crypto checker flags sigversion script verify state
  | .OpCheckSigAdd => op_checksigadd checker flags sigversion state
  | .OpCheckMultiSig verify => op_checkmultisig crypto checker flags sigversion script verify state
  | .bad => fail .BadOpcode

/-- Count an opcode that is not a push. Tapscript has no such limit. -/
def count_op (opcode : UInt8) (state : State) : Run State :=
  if sigversion.before_taproot ∧ OP_16 < opcode then do
    let op_count ← add_u32 state.op_count 1
    ensure (decide (op_count ≤ MAX_OPS_PER_SCRIPT)) .OpCount
    pure { state with op_count }
  else pure state

/-- Execute an opcode, or skip it in a branch that is not executed. -/
def perform (opcode : UInt8) (push_data : List UInt8) (state : State) : Run State :=
  let f_exec := state.vf_exec.all_true
  if f_exec ∧ opcode ≤ OP_PUSHDATA4 then do
    ensure (!(require_minimal flags && !check_minimal_push push_data opcode)) .MinimalData
    pure { state with stack := push_data :: state.stack }
  else if f_exec ∨ OP_IF ≤ opcode ∧ opcode ≤ OP_ENDIF then
    (Operation.from_u8 opcode).run crypto checker flags sigversion script f_exec state
  else pure state

/-- One pass of the loop: the opcode at `pc`. -/
def step (state : State) : Run State :=
  match script.get_op state.pc with
  | none => fail .BadOpcode
  | some (opcode, push_data, new_pc) => do
    ensure (decide (push_data.length ≤ MAX_SCRIPT_ELEMENT_SIZE)) .PushSize
    let state ← count_op sigversion opcode { state with pc := new_pc }
    ensure (!is_disabled_opcode opcode) .DisabledOpcode
    ensure (!(opcode == OP_CODESEPARATOR && sigversion == .Base &&
      contains flags ScriptVerifyFlags.CONST_SCRIPTCODE)) .OpCodeSeparator
    let state ← perform crypto checker flags sigversion script opcode push_data state
    ensure (decide (state.stack.length + state.altstack.length ≤ MAX_STACK_SIZE)) .StackSize
    let opcode_pos ← add_u32 state.opcode_pos 1
    pure { state with opcode_pos }

/-- The loop. Every opcode is at least one byte long, so that the fuel does not run out. -/
def eval_loop : Nat → State → Run State
  | 0, state => if state.pc < script.len then .error (.panic (.assertion_failed "out of fuel")) else pure state
  | fuel + 1, state =>
    if state.pc < script.len then do
      let state ← step crypto checker flags sigversion script state
      eval_loop fuel state
    else pure state

def State.start (stack : Stack) (exec_data : ScriptExecutionData) : State where
  pc := 0
  stack
  altstack := []
  vf_exec := .new
  op_count := 0
  pbegincodehash := 0
  opcode_pos := 0
  exec_data := { exec_data with codeseparator_pos := 0xffffffff, codeseparator_pos_init := true }

/-- Evaluate a script over a stack: the stack and the execution data at its end. -/
def eval_script (stack : Stack) (exec_data : ScriptExecutionData) : Run (Stack × ScriptExecutionData) :=
  if sigversion = .Taproot then
    .error (.panic (.assertion_failed "debug_assert!(sigversion == Base || WitnessV0 || Tapscript)"))
  else do
    ensure (!(sigversion.before_taproot && decide (MAX_SCRIPT_SIZE < script.len))) .ScriptSize
    let state ← eval_loop crypto checker flags sigversion script script.len (.start stack exec_data)
    ensure state.vf_exec.empty .UnbalancedConditional
    pure (state.stack, state.exec_data)

/-- The states of a run at the boundaries between opcodes, from a state on. -/
inductive Boundary (start : State) : State → Prop where
  | start : Boundary start start
  | step {state next : State} (hbefore : Boundary start state) (hpc : state.pc < script.len)
      (hstep : step crypto checker flags sigversion script state = .ok next) : Boundary start next

end qubitcoin.interpreter.vm
