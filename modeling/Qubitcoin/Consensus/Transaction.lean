import Qubitcoin.Script

/-! `qubitcoin-consensus/transaction.rs`: transactions and their wire format. -/

open qubitcoin primitives script

namespace qubitcoin.transaction

def SEQUENCE_FINAL : UInt32 := 0xffffffff
def SEQUENCE_LOCKTIME_DISABLE_FLAG : UInt32 := 0x80000000
def SEQUENCE_LOCKTIME_TYPE_FLAG : UInt32 := 0x00400000
def SEQUENCE_LOCKTIME_MASK : UInt32 := 0x0000ffff
def SEQUENCE_LOCKTIME_GRANULARITY : Nat := 9

/-- A reference to one output of a transaction. -/
structure OutPoint where
  hash : Txid
  n : UInt32
  deriving DecidableEq, Repr

def OutPoint.NULL_INDEX : UInt32 := 0xffffffff

def OutPoint.null : OutPoint := ⟨0, OutPoint.NULL_INDEX⟩

def OutPoint.is_null (self : OutPoint) : Bool := Uint256.is_null self.hash && self.n == OutPoint.NULL_INDEX

structure Witness where
  stack : List (List UInt8)
  deriving DecidableEq, Repr

def Witness.new : Witness := ⟨[]⟩

def Witness.is_null (self : Witness) : Bool := self.stack.isEmpty

structure TxIn where
  prevout : OutPoint
  script_sig : Script
  sequence : UInt32
  witness : Witness
  deriving DecidableEq, Repr

structure TxOut where
  value : Amount
  script_pubkey : Script
  deriving DecidableEq, Repr

/-- The output that stands for a spent coin. -/
def TxOut.null : TxOut := ⟨-1, Script.new⟩

def TxOut.is_null (self : TxOut) : Bool := self.value == -1

/-- A transaction with its cached ids. `Transaction.new` computes both ids
    from the contents. -/
structure Transaction where
  version : UInt32
  vin : List TxIn
  vout : List TxOut
  lock_time : UInt32
  hash : Txid
  witness_hash : Wtxid
  deriving DecidableEq, Repr

def Transaction.txid (self : Transaction) : Txid := self.hash

def Transaction.wtxid (self : Transaction) : Wtxid := self.witness_hash

def Transaction.is_coinbase (self : Transaction) : Bool :=
  match self.vin with
  | [input] => input.prevout.is_null
  | _ => false

def Transaction.has_witness (self : Transaction) : Bool :=
  self.vin.any fun input => !input.witness.is_null

/-- The loop of `get_value_out`, from a running sum. -/
def value_out_from {S : Type} (sum : Amount) : List TxOut → Except (Failure S) Amount
  | [] => .ok sum
  | out :: rest => do
    let sum ← checked .Amount (sum + out.value)
    value_out_from sum rest

def Transaction.get_value_out {S : Type} (self : Transaction) : Except (Failure S) Amount :=
  value_out_from 0 self.vout

def write_compact_size (size : Nat) : List UInt8 :=
  if size < 253 then [UInt8.ofNat size]
  else if size ≤ 0xffff then 253 :: littleEndian.toBytes 2 size
  else if size ≤ 0xffffffff then 254 :: littleEndian.toBytes 4 size
  else 255 :: littleEndian.toBytes 8 size

def encode_u32 (x : UInt32) : List UInt8 := littleEndian.toBytes 4 x.toNat

def encode_i64 (x : Int) : List UInt8 := littleEndian.toBytes 8 (x % 2 ^ 64).toNat

def encode_script (script : Script) : List UInt8 := write_compact_size script.len ++ script.data

def OutPoint.encode (self : OutPoint) : List UInt8 := Uint256.data self.hash ++ encode_u32 self.n

def TxIn.encode (self : TxIn) : List UInt8 :=
  self.prevout.encode ++ encode_script self.script_sig ++ encode_u32 self.sequence

def TxOut.encode (self : TxOut) : List UInt8 := encode_i64 self.value ++ encode_script self.script_pubkey

def Witness.encode (self : Witness) : List UInt8 :=
  write_compact_size self.stack.length ++
    self.stack.flatMap fun item => write_compact_size item.length ++ item

/-- The wire form; the witness section is written only for a transaction that
    has a witness, and only where the caller allows it. -/
def serialize_transaction (tx : Transaction) (allow_witness : Bool) : List UInt8 :=
  let extended := allow_witness && tx.has_witness
  encode_u32 tx.version ++
    (if extended then write_compact_size 0 ++ [1] else []) ++
    write_compact_size tx.vin.length ++ tx.vin.flatMap TxIn.encode ++
    write_compact_size tx.vout.length ++ tx.vout.flatMap TxOut.encode ++
    (if extended then tx.vin.flatMap fun input => input.witness.encode else []) ++
    encode_u32 tx.lock_time

def Transaction.get_weight (self : Transaction) : Nat :=
  (serialize_transaction self false).length * 3 + (serialize_transaction self true).length

/-- A quarter of the weight, rounded up. -/
def Transaction.get_virtual_size (self : Transaction) : Nat := (self.get_weight + 3) / 4

/-- Build a transaction and compute its ids. -/
def Transaction.new (hash256 : List UInt8 → Uint256) (version : UInt32) (vin : List TxIn)
    (vout : List TxOut) (lock_time : UInt32) : Transaction :=
  let tx : Transaction := { version, vin, vout, lock_time, hash := 0, witness_hash := 0 }
  { tx with
    hash := hash256 (serialize_transaction tx false)
    witness_hash := hash256 (serialize_transaction tx true) }

end qubitcoin.transaction

/-! `qubitcoin-consensus/block.rs` and `params.rs`. -/

open qubitcoin primitives transaction

namespace qubitcoin.block

structure BlockHeader where
  version : Int32
  prev_blockhash : BlockHash
  merkle_root : Uint256
  time : UInt32
  bits : UInt32
  nonce : UInt32
  deriving DecidableEq, Repr

def BlockHeader.encode (self : BlockHeader) : List UInt8 :=
  encode_u32 self.version.toUInt32 ++ Uint256.data self.prev_blockhash ++ Uint256.data self.merkle_root ++
    encode_u32 self.time ++ encode_u32 self.bits ++ encode_u32 self.nonce

def BlockHeader.block_hash (hash256 : List UInt8 → Uint256) (self : BlockHeader) : BlockHash :=
  hash256 self.encode

def BlockHeader.get_block_time (self : BlockHeader) : Int := self.time.toNat

structure Block where
  header : BlockHeader
  vtx : List Transaction
  deriving DecidableEq, Repr

def Block.block_hash (hash256 : List UInt8 → Uint256) (self : Block) : BlockHash :=
  self.header.block_hash hash256

def Block.encode (self : Block) : List UInt8 :=
  self.header.encode ++ write_compact_size self.vtx.length ++
    self.vtx.flatMap fun tx => serialize_transaction tx true

end qubitcoin.block

namespace qubitcoin.params

/-- The consensus parameters that block validation reads. -/
structure ConsensusParams where
  genesis_hash : BlockHash
  bip34_height : Int
  bip65_height : Int
  bip66_height : Int
  csv_height : Int
  segwit_height : Int
  script_flag_exceptions : List (BlockHash × UInt32)
  pow_limit : Uint256
  pow_target_timespan : Int
  pow_target_spacing : Int
  pow_allow_min_difficulty_blocks : Bool
  pow_no_retargeting : Bool
  enforce_bip94 : Bool
  signet_blocks : Bool
  signet_challenge : List UInt8
  subsidy_halving_interval : Int

def MAX_TIMEWARP : Int := 600

def ConsensusParams.difficulty_adjustment_interval (self : ConsensusParams) : Int :=
  self.pow_target_timespan.tdiv self.pow_target_spacing

def ConsensusParams.regtest : ConsensusParams where
  genesis_hash := 0x0f9188f13cb7b2c71f2a335e3a4fc328bf5beb436012afca590b1a11466e2206
  bip34_height := 1
  bip65_height := 1
  bip66_height := 1
  csv_height := 1
  segwit_height := 0
  script_flag_exceptions := []
  pow_limit := 0x7fffffffffffffffffffffffffffffffffffffffffffffffffffffffffffffff
  pow_target_timespan := 24 * 60 * 60
  pow_target_spacing := 10 * 60
  pow_allow_min_difficulty_blocks := true
  pow_no_retargeting := true
  enforce_bip94 := false
  signet_blocks := false
  signet_challenge := []
  subsidy_halving_interval := 150

end qubitcoin.params
