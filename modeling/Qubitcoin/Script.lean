import Qubitcoin.Primitives

/-! `qubitcoin-script`: scripts as byte strings, the opcode iterator, the
    script templates and the static signature-operation count. -/

namespace qubitcoin.script

def MAX_PUBKEYS_PER_MULTISIG : Nat := 20
def MAX_SCRIPT_SIZE : Nat := 10000

def OP_0 : UInt8 := 0x00
def OP_PUSHDATA1 : UInt8 := 0x4c
def OP_PUSHDATA2 : UInt8 := 0x4d
def OP_PUSHDATA4 : UInt8 := 0x4e
def OP_1NEGATE : UInt8 := 0x4f
def OP_1 : UInt8 := 0x51
def OP_16 : UInt8 := 0x60
def OP_IF : UInt8 := 0x63
def OP_ENDIF : UInt8 := 0x68
def OP_RETURN : UInt8 := 0x6a
def OP_DUP : UInt8 := 0x76
def OP_EQUAL : UInt8 := 0x87
def OP_EQUALVERIFY : UInt8 := 0x88
def OP_HASH160 : UInt8 := 0xa9
def OP_CODESEPARATOR : UInt8 := 0xab
def OP_CHECKSIG : UInt8 := 0xac
def OP_CHECKSIGVERIFY : UInt8 := 0xad
def OP_CHECKMULTISIG : UInt8 := 0xae
def OP_CHECKMULTISIGVERIFY : UInt8 := 0xaf

structure Script where
  data : List UInt8
  deriving DecidableEq, Repr

def Script.new : Script := ⟨[]⟩

def Script.len (self : Script) : Nat := self.data.length

/-- The operation that starts at `pos`: its opcode, the data it pushes and the
    position after it. `none` at the end and where a push is cut short. -/
def Script.get_op (self : Script) (pos : Nat) : Option (UInt8 × List UInt8 × Nat) :=
  match self.data.drop pos with
  | [] => none
  | opcode :: rest =>
    let push (width : Nat) : Option (UInt8 × List UInt8 × Nat) :=
      if rest.length < width then none
      else
        let n := littleEndian.ofBytes (rest.take width)
        if rest.length < width + n then none
        else some (opcode, (rest.drop width).take n, pos + 1 + width + n)
    if opcode ≤ 0x4b then
      let n := opcode.toNat
      if rest.length < n then none else some (opcode, rest.take n, pos + 1 + n)
    else if opcode = OP_PUSHDATA1 then push 1
    else if opcode = OP_PUSHDATA2 then push 2
    else if opcode = OP_PUSHDATA4 then push 4
    else some (opcode, [], pos + 1)

def Script.push_opcode (self : Script) (opcode : UInt8) : Script := ⟨self.data ++ [opcode]⟩

/-- Append a push of `data`, in its shortest form. -/
def Script.push_data (self : Script) (data : List UInt8) : Script :=
  let len := data.length
  if len = 0 then ⟨self.data ++ [OP_0]⟩
  else if len ≤ 0x4b then ⟨self.data ++ [UInt8.ofNat len] ++ data⟩
  else if len ≤ 0xff then ⟨self.data ++ [OP_PUSHDATA1, UInt8.ofNat len] ++ data⟩
  else if len ≤ 0xffff then ⟨self.data ++ [OP_PUSHDATA2] ++ littleEndian.toBytes 2 len ++ data⟩
  else ⟨self.data ++ [OP_PUSHDATA4] ++ littleEndian.toBytes 4 len ++ data⟩

def build_p2pkh (pubkey_hash : List UInt8) : Script :=
  ((((Script.new.push_opcode OP_DUP).push_opcode OP_HASH160).push_data pubkey_hash).push_opcode
    OP_EQUALVERIFY).push_opcode OP_CHECKSIG

def build_p2wpkh (pubkey_hash : List UInt8) : Script := (Script.new.push_opcode OP_0).push_data pubkey_hash

def Script.is_p2sh (self : Script) : Bool :=
  self.data.length == 23 && self.data.getD 0 0 == OP_HASH160 && self.data.getD 1 0 == 0x14 &&
    self.data.getD 22 0 == OP_EQUAL

def Script.is_witness_program (self : Script) : Option (Nat × List UInt8) :=
  if self.data.length < 4 ∨ 42 < self.data.length then none
  else
    let version_opcode := self.data.getD 0 0
    if version_opcode ≠ OP_0 ∧ ¬ (OP_1 ≤ version_opcode ∧ version_opcode ≤ OP_16) then none
    else
      let program_len := (self.data.getD 1 0).toNat
      if program_len + 2 ≠ self.data.length ∨ ¬ (2 ≤ program_len ∧ program_len ≤ 40) then none
      else
        let version := if version_opcode = 0 then 0 else version_opcode.toNat - 0x50
        some (version, self.data.drop 2)

/-- A script that no input can satisfy: it starts with `OP_RETURN` or is too
    long to be evaluated. -/
def Script.is_unspendable (self : Script) : Bool :=
  (decide (0 < self.data.length) && self.data.getD 0 0 == OP_RETURN) ||
    decide (MAX_SCRIPT_SIZE < self.data.length)

/-- The loop of `get_sig_op_count`. Every operation is at least one byte long,
    so a fuel of the script's length runs it to its end. -/
def Script.get_sig_op_count_loop (self : Script) (accurate : Bool) :
    Nat → Nat → UInt8 → Nat → Nat
  | 0, _, _, count => count
  | fuel + 1, pos, last_opcode, count =>
    match self.get_op pos with
    | none => count
    | some (opcode, _, new_pos) =>
      let count :=
        if opcode = OP_CHECKSIG ∨ opcode = OP_CHECKSIGVERIFY then count + 1
        else if opcode = OP_CHECKMULTISIG ∨ opcode = OP_CHECKMULTISIGVERIFY then
          if accurate = true ∧ OP_1 ≤ last_opcode ∧ last_opcode ≤ OP_16 then
            count + (last_opcode.toNat - 0x50)
          else count + MAX_PUBKEYS_PER_MULTISIG
        else count
      self.get_sig_op_count_loop accurate fuel new_pos opcode count

def Script.get_sig_op_count (self : Script) (accurate : Bool) : Nat :=
  self.get_sig_op_count_loop accurate self.len 0 0 0

/-- The loop of `is_push_only`. -/
def Script.is_push_only_loop (self : Script) : Nat → Nat → Bool
  | 0, _ => true
  | fuel + 1, pos =>
    match self.get_op pos with
    | none => true
    | some (opcode, _, new_pos) => if OP_16 < opcode then false else self.is_push_only_loop fuel new_pos

/-- Every operation is a push. A push that is cut short ends the script. -/
def Script.is_push_only (self : Script) : Bool := self.is_push_only_loop self.len 0

/-- The data of the last non-empty push before the first operation that the
    guard refuses, walking from `pos`; `none` when the guard refuses one. -/
def Script.last_push (self : Script) (allowed : UInt8 → Bool) :
    Nat → Nat → List UInt8 → Option (List UInt8)
  | 0, _, last_data => some last_data
  | fuel + 1, pos, last_data =>
    match self.get_op pos with
    | none => some last_data
    | some (opcode, data, new_pos) =>
      if allowed opcode then
        self.last_push allowed fuel new_pos (if data.isEmpty then last_data else data)
      else none

end qubitcoin.script

namespace qubitcoin.ScriptVerifyFlags

/-! The `SCRIPT_VERIFY_*` bits. -/

def NONE : UInt32 := 0
def P2SH : UInt32 := (1 : UInt32) <<< 0
def STRICTENC : UInt32 := (1 : UInt32) <<< 1
def DERSIG : UInt32 := (1 : UInt32) <<< 2
def LOW_S : UInt32 := (1 : UInt32) <<< 3
def NULLDUMMY : UInt32 := (1 : UInt32) <<< 4
def SIGPUSHONLY : UInt32 := (1 : UInt32) <<< 5
def MINIMALDATA : UInt32 := (1 : UInt32) <<< 6
def DISCOURAGE_UPGRADABLE_NOPS : UInt32 := (1 : UInt32) <<< 7
def CLEANSTACK : UInt32 := (1 : UInt32) <<< 8
def CHECKLOCKTIMEVERIFY : UInt32 := (1 : UInt32) <<< 9
def CHECKSEQUENCEVERIFY : UInt32 := (1 : UInt32) <<< 10
def WITNESS : UInt32 := (1 : UInt32) <<< 11
def DISCOURAGE_UPGRADABLE_WITNESS_PROGRAM : UInt32 := (1 : UInt32) <<< 12
def MINIMALIF : UInt32 := (1 : UInt32) <<< 13
def NULLFAIL : UInt32 := (1 : UInt32) <<< 14
def WITNESS_PUBKEYTYPE : UInt32 := (1 : UInt32) <<< 15
def CONST_SCRIPTCODE : UInt32 := (1 : UInt32) <<< 16
def TAPROOT : UInt32 := (1 : UInt32) <<< 17
def DISCOURAGE_UPGRADABLE_TAPROOT_VERSION : UInt32 := (1 : UInt32) <<< 18
def DISCOURAGE_OP_SUCCESS : UInt32 := (1 : UInt32) <<< 19
def DISCOURAGE_UPGRADABLE_PUBKEYTYPE : UInt32 := (1 : UInt32) <<< 20

/-- The flags that all new blocks must comply with. -/
def MANDATORY_SCRIPT_VERIFY_FLAGS : UInt32 :=
  P2SH ||| DERSIG ||| NULLDUMMY ||| CHECKLOCKTIMEVERIFY ||| CHECKSEQUENCEVERIFY ||| WITNESS ||| TAPROOT

def STANDARD_SCRIPT_VERIFY_FLAGS : UInt32 :=
  MANDATORY_SCRIPT_VERIFY_FLAGS ||| STRICTENC ||| MINIMALDATA ||| DISCOURAGE_UPGRADABLE_NOPS ||| CLEANSTACK |||
    MINIMALIF ||| NULLFAIL ||| LOW_S ||| DISCOURAGE_UPGRADABLE_WITNESS_PROGRAM ||| WITNESS_PUBKEYTYPE |||
    CONST_SCRIPTCODE ||| DISCOURAGE_UPGRADABLE_TAPROOT_VERSION ||| DISCOURAGE_OP_SUCCESS |||
    DISCOURAGE_UPGRADABLE_PUBKEYTYPE

/-- `from_bits_truncate`: bits 21 and above name no flag. -/
def from_bits_truncate (bits : UInt32) : UInt32 := bits &&& 0x1fffff

end qubitcoin.ScriptVerifyFlags
