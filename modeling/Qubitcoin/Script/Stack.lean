import Qubitcoin.Lib.Outcome
import Qubitcoin.Script.Interpreter

/-! `qubitcoin-script`: what the evaluator works on. Stacks, script numbers, the condition
    stack, and the encodings of signatures and public keys. A failing `unwrap` or index is a
    panic. -/

open qubitcoin.script

namespace qubitcoin.interpreter.vm

/-- A part of the evaluation: it returns, names a script error, or panics. -/
abbrev Run := Except (Failure ScriptError)

def fail {A : Type} (e : ScriptError) : Run A := .error (.invalid e)

def ensure (c : Bool) (e : ScriptError) : Run Unit := require c (.invalid e)

/-- A check that is made only under a condition. -/
def only_if (c : Bool) (x : Run Unit) : Run Unit := if c then x else pure ()

def add_u32 (x y : Nat) : Run Nat := if x + y < 2 ^ 32 then .ok (x + y) else .error (.panic (.overflow .u32))

def sub_u32 (x y : Nat) : Run Nat := if y ≤ x then .ok (x - y) else .error (.panic (.overflow .u32))

/-- `bytes[i]`. -/
def index (bytes : List UInt8) (i : Nat) : Run UInt8 :=
  match bytes[i]? with
  | some byte => .ok byte
  | none => .error (.panic .index_out_of_bounds)

/-- A stack, its top first. -/
abbrev Stack := List StackValue

namespace Stack

variable (self : Stack)

/-- `stack.size() < n` is an error of the script. -/
def need (n : Nat) : Run Unit := ensure (decide (n ≤ self.length)) .InvalidStackOperation

/-- `top(-k).unwrap()`: the `k`-th value from the top. -/
def top (k : Nat) : Run StackValue :=
  match self[k - 1]? with
  | some value => .ok value
  | none => .error (.panic .index_out_of_bounds)

/-- `pop()`, its result dropped. -/
def pop : Stack := self.tail

def swap_top (a b : Nat) : Run Stack := do
  let x ← self.top a
  let y ← self.top b
  pure ((self.set (a - 1) y).set (b - 1) x)

/-- `erase_top(-k)`, and `erase` of one value. -/
def erase_top (k : Nat) : Run Stack :=
  if k ≤ self.length then .ok (self.eraseIdx (k - 1)) else .error (.panic .index_out_of_bounds)

/-- `erase_top_range(-start, -stop)`. -/
def erase_top_range (start stop : Nat) : Run Stack :=
  if start ≤ self.length then .ok (self.take stop ++ self.drop start) else .error (.panic .index_out_of_bounds)

/-- `insert_top(-k, value)`. -/
def insert_top (k : Nat) (value : StackValue) : Run Stack :=
  if k ≤ self.length then .ok (self.take k ++ value :: self.drop k) else .error (.panic .index_out_of_bounds)

end Stack

/-- `vch_true` and `vch_false`. -/
def bool_value (b : Bool) : StackValue := if b then [1] else []

/-- The most significant byte is needed: it has more than a sign, or it keeps the sign apart
    from the byte before it. -/
def minimally_encoded (vch : List UInt8) : Bool :=
  match vch.reverse with
  | [] => true
  | last :: before =>
    last &&& 0x7f != 0 ||
      match before with
      | [] => false
      | second :: _ => second &&& 0x80 != 0

/-- Shifts by 64 bits or more panic. -/
def decode_bytes (vch : List UInt8) : Run Int :=
  if 8 < vch.length then .error (.panic (.overflow .i64))
  else
    match vch.getLast? with
    | none => .ok 0
    | some last =>
      let result : Int := littleEndian.ofBytes vch
      .ok (if last &&& 0x80 ≠ 0 then -(result - 0x80 * 256 ^ (vch.length - 1)) else result)

theorem sign_bit_iff (byte : UInt8) : byte &&& 0x80 ≠ 0 ↔ 128 ≤ byte.toNat := by
  obtain ⟨⟨bits⟩⟩ := byte
  revert bits
  decide +kernel

/-- `ScriptNum::from_bytes`, with the error that the evaluator makes of its failure. -/
def stack_to_script_num (val : List UInt8) (require_minimal : Bool) (max_size : Nat) : Run Int := do
  ensure (decide (val.length ≤ max_size)) .ScriptNum
  ensure (!(require_minimal && !minimally_encoded val)) .ScriptNum
  decode_bytes val

def DEFAULT_MAX_NUM_SIZE : Nat := 4

def ScriptNum.getint (n : Int) : Int :=
  if 2 ^ 31 - 1 < n then 2 ^ 31 - 1 else if n < -2 ^ 31 then -2 ^ 31 else n

/-- `size as i32`. -/
@[irreducible]
def size_as_i32 (size : Nat) : Int := Int.bmod size (2 ^ 32)

/-- The number of open branches and the position of the first that is not executed. -/
structure ConditionStack where
  stack_size : Nat
  first_false_pos : Nat
  deriving DecidableEq, Repr

def NO_FALSE : Nat := 2 ^ 32 - 1

namespace ConditionStack

def new : ConditionStack := ⟨0, NO_FALSE⟩

variable (self : ConditionStack)

def empty : Bool := self.stack_size == 0

def all_true : Bool := self.first_false_pos == NO_FALSE

def push_back (f : Bool) : Run ConditionStack := do
  let first_false_pos := if self.first_false_pos = NO_FALSE ∧ f = false then self.stack_size else self.first_false_pos
  let stack_size ← add_u32 self.stack_size 1
  pure ⟨stack_size, first_false_pos⟩

def pop_back : Run ConditionStack := do
  let stack_size ← sub_u32 self.stack_size 1
  pure ⟨stack_size, if self.first_false_pos = stack_size then NO_FALSE else self.first_false_pos⟩

def toggle_top : Run ConditionStack := do
  let top ← sub_u32 self.stack_size 1
  if self.first_false_pos = NO_FALSE then pure { self with first_false_pos := top }
  else if self.first_false_pos = top then pure { self with first_false_pos := NO_FALSE }
  else pure self

end ConditionStack

abbrev Digest (n : Nat) := { bytes : List UInt8 // bytes.length = n }

/-- The hash functions, and the calls of the `secp256k1` crate. An ECDSA signature is the pair
    of its numbers; a key and a scalar are their bytes. -/
structure Crypto where
  ripemd160_hash : List UInt8 → Digest 20
  sha1_hash : List UInt8 → Digest 20
  sha256_hash : List UInt8 → Digest 32
  hash160 : List UInt8 → Digest 20
  hash256 : List UInt8 → Digest 32
  from_der : List UInt8 → Option (Nat × Nat)
  normalize_s : Nat × Nat → Nat × Nat
  x_only_from_slice : List UInt8 → Option (List UInt8)
  scalar_from_be_bytes : List UInt8 → Option (List UInt8)
  tweak_add_check : (internal_key output_key : List UInt8) → (parity : UInt8) → (tweak : List UInt8) → Bool

inductive SigVersion where
  | Base | WitnessV0 | Taproot | Tapscript
  deriving DecidableEq, Repr

/-- `Base` or `WitnessV0`. -/
def SigVersion.before_taproot (self : SigVersion) : Bool := self == .Base || self == .WitnessV0

structure ScriptExecutionData where
  tapleaf_hash_init : Bool
  tapleaf_hash : List UInt8
  codeseparator_pos_init : Bool
  codeseparator_pos : Nat
  validation_weight_left_init : Bool
  validation_weight_left : Int
  annex_init : Bool
  annex_present : Bool
  annex_hash : List UInt8
  deriving DecidableEq, Repr

def ScriptExecutionData.default : ScriptExecutionData :=
  ⟨false, List.replicate 32 0, false, 0, false, 0, false, false, List.replicate 32 0⟩

/-- The checks that need the transaction. A Schnorr signature is refused with an error. -/
structure SignatureChecker where
  check_ecdsa_signature : (sig pubkey : List UInt8) → (script_code : Script) → SigVersion → Bool
  check_schnorr_signature : (sig pubkey : List UInt8) → SigVersion → ScriptExecutionData → Except ScriptError Unit
  check_lock_time : Int → Bool
  check_sequence : Int → Bool

/-- The checker without a transaction. -/
def BaseSignatureChecker : SignatureChecker where
  check_ecdsa_signature _ _ _ _ := false
  check_schnorr_signature _ _ _ _ := .error .SchnorrSig
  check_lock_time _ := false
  check_sequence _ := false

def is_compressed_or_uncompressed_pubkey (pubkey : List UInt8) : Run Bool :=
  if pubkey.length < 33 then pure false
  else do
    let first ← index pubkey 0
    if first = 0x04 then pure (pubkey.length == 65)
    else if first = 0x02 ∨ first = 0x03 then pure (pubkey.length == 33)
    else pure false

def is_compressed_pubkey (pubkey : List UInt8) : Run Bool :=
  if pubkey.length = 33 then do
    let first ← index pubkey 0
    pure (first == 0x02 || first == 0x03)
  else pure false

/-- An integer of a DER signature, `len` bytes from `start` on: not empty, not negative, and
    not padded. -/
def is_valid_integer (sig : List UInt8) (start len : Nat) : Run Bool :=
  if len = 0 then pure false
  else do
    let first ← index sig start
    if first &&& 0x80 ≠ 0 then pure false
    else if len > 1 ∧ first = 0 then do
      let second ← index sig (start + 1)
      pure (second &&& 0x80 != 0)
    else pure true

def is_valid_signature_encoding (sig : List UInt8) : Run Bool :=
  if sig.length < 9 ∨ sig.length > 73 then pure false
  else do
    let tag ← index sig 0
    let total ← index sig 1
    let tag_r ← index sig 2
    let byte_r ← index sig 3
    let len_r := byte_r.toNat
    if tag ≠ 0x30 ∨ total.toNat ≠ sig.length - 3 ∨ 5 + len_r ≥ sig.length then pure false
    else do
      let byte_s ← index sig (5 + len_r)
      let len_s := byte_s.toNat
      if len_r + len_s + 7 ≠ sig.length ∨ tag_r ≠ 0x02 then pure false
      else do
        let valid_r ← is_valid_integer sig 4 len_r
        let tag_s ← index sig (len_r + 4)
        let valid_s ← is_valid_integer sig (len_r + 6) len_s
        pure (valid_r && tag_s == 0x02 && valid_s)

/-- The hash type, without `ANYONECANPAY`, is `ALL`, `NONE` or `SINGLE`. -/
def is_defined_hashtype_signature (sig : List UInt8) : Bool :=
  match sig.getLast? with
  | none => false
  | some last => decide (1 ≤ last &&& 0x7f ∧ last &&& 0x7f ≤ 3)

section

variable (crypto : Crypto) (flags : UInt32)

def is_low_der_signature (sig : List UInt8) : Run Unit := do
  let valid ← is_valid_signature_encoding sig
  ensure valid .SigDer
  match crypto.from_der sig.dropLast with
  | some parsed => ensure (crypto.normalize_s parsed == parsed) .SigHighS
  | none => fail .SigDer

/-- The flags that ask for the strict encoding. -/
def strict_der : Bool :=
  contains flags ScriptVerifyFlags.DERSIG || contains flags ScriptVerifyFlags.LOW_S ||
    contains flags ScriptVerifyFlags.STRICTENC

def check_signature_encoding (sig : List UInt8) : Run Unit :=
  if sig.isEmpty then pure ()
  else do
    only_if (strict_der flags) do
      let valid ← is_valid_signature_encoding sig
      ensure valid .SigDer
    only_if (contains flags ScriptVerifyFlags.LOW_S) (is_low_der_signature crypto sig)
    only_if (contains flags ScriptVerifyFlags.STRICTENC) (ensure (is_defined_hashtype_signature sig) .SigHashtype)

def check_pubkey_encoding (pubkey : List UInt8) (sigversion : SigVersion) : Run Unit := do
  only_if (contains flags ScriptVerifyFlags.STRICTENC) do
    let valid ← is_compressed_or_uncompressed_pubkey pubkey
    ensure valid .PubKeyType
  only_if (contains flags ScriptVerifyFlags.WITNESS_PUBKEYTYPE && sigversion == .WitnessV0) do
    let valid ← is_compressed_pubkey pubkey
    ensure valid .WitnessPubKeyType

end

end qubitcoin.interpreter.vm
