import Qubitcoin.Consensus.Transaction

/-! `qubitcoin-script/interpreter.rs`: the evaluation loop with the push operations. What the other
    operations do is left to the caller. On scripts that only push it is the evaluator with all of
    its operations. -/

open qubitcoin script transaction

namespace qubitcoin.interpreter

def MAX_SCRIPT_ELEMENT_SIZE : Nat := 520
def MAX_OPS_PER_SCRIPT : Nat := 201
def MAX_STACK_SIZE : Nat := 1000

inductive ScriptError where
  | UnknownError | EvalFalse | OpReturn | ScriptNum | ScriptSize | PushSize | OpCount | StackSize | SigCount
  | PubkeyCount | Verify | EqualVerify | CheckMultiSigVerify | CheckSigVerify | NumEqualVerify | BadOpcode
  | DisabledOpcode | InvalidStackOperation | InvalidAltstackOperation | UnbalancedConditional | NegativeLocktime
  | UnsatisfiedLocktime | SigHashtype | SigDer | MinimalData | SigPushOnly | SigHighS | SigNullDummy | PubKeyType
  | CleanStack | MinimalIf | SigNullFail | DiscourageUpgradableNops | DiscourageUpgradableWitnessProgram
  | DiscourageUpgradableTaprootVersion | DiscourageOpSuccess | DiscourageUpgradablePubkeyType
  | WitnessProgramWrongLength | WitnessProgramWitnessEmpty | WitnessProgramMismatch | WitnessMalleated
  | WitnessMalleatedP2sh | WitnessUnexpected | WitnessPubKeyType | SchnorrSigSize | SchnorrSigHashtype | SchnorrSig
  | TaprootWrongControlSize | TapscriptValidationWeight | TapscriptCheckMultiSig | TapscriptMinimalIf
  | TapscriptEmptyPubkey | OpCodeSeparator | SigFindAndDelete
  deriving DecidableEq, Repr

abbrev StackValue := List UInt8

/-- The state of the evaluation loop. The top of a stack is its last value, and `vf_exec` has
    the conditions of the open branches. -/
structure Machine where
  stack : List StackValue
  altstack : List StackValue
  vf_exec : List Bool
  op_count : Nat
  deriving DecidableEq, Repr

def Machine.push (self : Machine) (value : StackValue) : Machine := { self with stack := self.stack ++ [value] }

/-- The operations above `OP_16`. -/
abbrev Operations := UInt8 → Machine → Except ScriptError Machine

/-- The little-endian bytes of a magnitude. -/
def magnitude : Nat → Nat → List UInt8
  | 0, _ => []
  | fuel + 1, absvalue => if absvalue = 0 then [] else UInt8.ofNat (absvalue % 256) :: magnitude fuel (absvalue / 256)

theorem length_magnitude_le (fuel absvalue : Nat) : (magnitude fuel absvalue).length ≤ fuel := by
  induction fuel generalizing absvalue with
  | zero => exact Nat.le_refl 0
  | succ fuel ih =>
    rw [magnitude]
    split
    · exact Nat.zero_le _
    · exact Nat.succ_le_succ (ih (absvalue / 256))

def ScriptNum.encode_i64 (value : Int) : List UInt8 :=
  if value = 0 then []
  else
    let negative := decide (value < 0)
    let result := magnitude 8 value.natAbs
    match result.getLast? with
    | none => result
    | some last =>
      if last &&& 0x80 ≠ 0 then result ++ [if negative then 0x80 else 0x00]
      else if negative then result.dropLast ++ [last ||| 0x80]
      else result

def check_minimal_push (data : List UInt8) (opcode : UInt8) : Bool :=
  match data with
  | [] => opcode == OP_0
  | first :: rest =>
    if rest.isEmpty ∧ 1 ≤ first ∧ first ≤ 16 then false
    else if rest.isEmpty ∧ first = 0x81 then false
    else if data.length ≤ 75 then opcode.toNat == data.length
    else if data.length ≤ 255 then opcode == OP_PUSHDATA1
    else if data.length ≤ 65535 then opcode == OP_PUSHDATA2
    else true

/-- `OP_CAT` to `OP_RIGHT`, `OP_INVERT` to `OP_XOR`, `OP_2MUL`, `OP_2DIV` and `OP_MUL` to
    `OP_RSHIFT`. -/
def is_disabled_opcode (opcode : UInt8) : Bool :=
  decide (0x7e ≤ opcode ∧ opcode ≤ 0x81) || decide (0x83 ≤ opcode ∧ opcode ≤ 0x86) || opcode == 0x8d ||
    opcode == 0x8e || decide (0x95 ≤ opcode ∧ opcode ≤ 0x99)

def contains (flags flag : UInt32) : Bool := flags &&& flag == flag

variable (operations : Operations) (flags : UInt32)

/-- Count an operation that is not a push. -/
def count_operation (machine : Machine) (opcode : UInt8) : Except ScriptError Machine :=
  if OP_16 < opcode then do
    let machine := { machine with op_count := machine.op_count + 1 }
    require (decide (machine.op_count ≤ MAX_OPS_PER_SCRIPT)) .OpCount
    pure machine
  else .ok machine

/-- An operation that is not skipped. `OP_RESERVED` is below `OP_16` and is none. -/
def perform (machine : Machine) (opcode : UInt8) (push_data : List UInt8) : Except ScriptError Machine :=
  let f_exec := machine.vf_exec.all id
  if f_exec ∧ opcode ≤ OP_PUSHDATA4 then do
    require (!(contains flags ScriptVerifyFlags.MINIMALDATA && !check_minimal_push push_data opcode)) .MinimalData
    pure (machine.push push_data)
  else if f_exec ∨ OP_IF ≤ opcode ∧ opcode ≤ OP_ENDIF then
    if opcode = OP_1NEGATE then .ok (machine.push (ScriptNum.encode_i64 (-1)))
    else if OP_1 ≤ opcode ∧ opcode ≤ OP_16 then .ok (machine.push (ScriptNum.encode_i64 (opcode.toNat - OP_1.toNat + 1)))
    else if opcode ≤ OP_16 then .error .BadOpcode
    else operations opcode machine
  else .ok machine

def execute (machine : Machine) (opcode : UInt8) (push_data : List UInt8) : Except ScriptError Machine := do
  require (decide (push_data.length ≤ MAX_SCRIPT_ELEMENT_SIZE)) .PushSize
  let machine ← count_operation machine opcode
  require (!is_disabled_opcode opcode) .DisabledOpcode
  require (!(opcode == OP_CODESEPARATOR && contains flags ScriptVerifyFlags.CONST_SCRIPTCODE)) .OpCodeSeparator
  let machine ← perform operations flags machine opcode push_data
  require (decide (machine.stack.length + machine.altstack.length ≤ MAX_STACK_SIZE)) .StackSize
  pure machine

/-- The evaluation loop. Every operation is at least one byte long, so a fuel of the script's
    length runs it to its end. -/
def eval_loop (script : Script) : Nat → Nat → Machine → Except ScriptError Machine
  | 0, _, machine => .ok machine
  | fuel + 1, pc, machine =>
    if pc < script.len then
      match script.get_op pc with
      | none => .error .BadOpcode
      | some (opcode, push_data, new_pc) => do
        let machine ← execute operations flags machine opcode push_data
        eval_loop script fuel new_pc machine
    else .ok machine

/-- Evaluate a script outside of witness programs, over a stack. -/
def eval_script (stack : List StackValue) (script : Script) : Except ScriptError (List StackValue) := do
  require (decide (script.len ≤ MAX_SCRIPT_SIZE)) .ScriptSize
  let machine ← eval_loop operations flags script script.len 0 ⟨stack, [], [], 0⟩
  require machine.vf_exec.isEmpty .UnbalancedConditional
  pure machine.stack

def cast_to_bool : List UInt8 → Bool
  | [] => false
  | [byte] => byte != 0 && byte != 0x80
  | byte :: rest => byte != 0 || cast_to_bool rest

/-- The redeem script that `verify_script` takes for a pay-to-script-hash output: the top of
    the stack after the pushes of `script_sig`. -/
def redeem_script (script_sig : Script) : Option Script :=
  if script_sig.is_push_only then
    match eval_script operations flags [] script_sig with
    | .ok stack => stack.getLast?.map Script.mk
    | .error _ => none
  else none

end qubitcoin.interpreter
