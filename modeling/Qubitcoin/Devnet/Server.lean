import Qubitcoin.Devnet.TestChain
import Qubitcoin.IndexerWeb.Storage
import Qubitcoin.Lib.Utf8
import Qubitcoin.Storage.BlockFiles

/-! `qubitcoin-web-sys/devnet_server.rs` and `backends.rs`: the state of a devnet server, its
    snapshots and how they are restored. The stores are those of the web indexer; what the
    indexer programs write into them is left open. -/

open qubitcoin indexer indexer_web.storage test_framework block

namespace qubitcoin.web_sys

/-- A named indexer with its store. -/
structure IndexerInstance where
  label : String
  storage : WebIndexerStorage

structure DevnetState where
  chain : TestChain
  alkanes_storage : WebIndexerStorage
  esplora_storage : Option WebIndexerStorage
  additional_secondaries : List IndexerInstance
  tertiary_indexers : List IndexerInstance

variable (keys : Keys)

/-- A new server; an esplora indexer is optional. -/
def DevnetState.new (secret_key : Bytes) (esplora : Bool) : Outcome DevnetState := do
  let chain ← TestChain.new_with_key_wpkh keys secret_key
  pure ⟨chain, .new, if esplora then some .new else none, [], []⟩

/-- `DNET`. -/
def MAGIC : Bytes := [0x44, 0x4e, 0x45, 0x54]

def u32_bytes (n : Nat) : Bytes := littleEndian.toBytes 4 n

def heights (chain : TestChain) : Outcome (List Int) :=
  if 0 ≤ chain.height then do
    let num_blocks ← checked .i32 (chain.height + 1)
    pure ((List.range num_blocks.toNat).map Int.ofNat)
  else pure []

/-- The blocks by their heights; every height has one. -/
def export_blocks (chain : TestChain) : List Int → Outcome (List Bytes)
  | [] => .ok []
  | h :: rest =>
    match chain.block_at h with
    | some block => do
      let more ← export_blocks chain rest
      pure (block.encode :: more)
    | none => .error (.invalid ("missing block at height " ++ toString h))

/-- The blob of the esplora indexer, of length zero where there is none. -/
def export_esplora : Option WebIndexerStorage → Bytes
  | some storage => chunks.write storage.export_bytes
  | none => u32_bytes 0

/-- All stores but those of the additional secondary indexers, after the blocks. -/
def DevnetState.export_state (self : DevnetState) : Outcome Bytes := do
  let heights ← heights self.chain
  let blocks ← export_blocks self.chain heights
  pure (MAGIC ++ u32_bytes 1 ++ u32_bytes (as_u32 self.chain.height).toNat ++ u32_bytes heights.length ++
    blocks.flatMap chunks.write ++ chunks.write self.alkanes_storage.export_bytes ++
    export_esplora self.esplora_storage ++
    u32_bytes self.tertiary_indexers.length ++
    self.tertiary_indexers.flatMap fun tertiary =>
      chunks.write_pair (utf8.bytes tertiary.label, tertiary.storage.export_bytes))

/-- `Display` of a decoding error. -/
def display_error : serialize.Error → String
  | .Io message => "I/O error: " ++ message
  | .NonCanonicalCompactSize => "Non-canonical compact size encoding"
  | .CompactSizeTooLarge size => "Compact size too large: " ++ toString size
  | .VarIntTooLarge => "VarInt too large"
  | .InvalidEncoding message => "Invalid encoding: " ++ message
  | .OversizedVector size => "Size exceeds max: " ++ toString size

/-- Where a length or what it announces is cut short. -/
def truncated (what : String) : chunks.Cut → String
  | .length => "truncated " ++ what ++ " length"
  | .bytes => "truncated " ++ what

/-- The blocks, counted from `i` on. -/
def parse_blocks : (count i : Nat) → Bytes → Except String (List Block × Bytes)
  | 0, _, data => .ok ([], data)
  | count + 1, i, data =>
    match chunks.read data with
    | .error .length => .error ("truncated block " ++ toString i ++ " length")
    | .error .bytes => .error ("truncated block " ++ toString i ++ " data")
    | .ok (bytes, data) =>
      match (Block.decode keys.hash256).run bytes with
      | .error e => .error ("block " ++ toString i ++ ": deserialize block: " ++ display_error e)
      | .ok (block, _) => do
        let (blocks, data) ← parse_blocks count (i + 1) data
        pure (block :: blocks, data)

/-- The labels and blobs of the tertiary indexers. -/
def parse_tertiaries : (count i : Nat) → Bytes → Except String (List (String × Bytes))
  | 0, _, _ => .ok []
  | count + 1, i, data =>
    match chunks.read data with
    | .error cut => .error (truncated ("tertiary " ++ toString i ++ " label") cut)
    | .ok (bytes, data) =>
      match utf8.ofBytes? bytes with
      | none => .error ("invalid utf8 in tertiary " ++ toString i ++ " label")
      | some label =>
        match chunks.read data with
        | .error cut => .error (truncated ("tertiary " ++ toString i ++ " blob") cut)
        | .ok (blob, data) => do
          let more ← parse_tertiaries count (i + 1) data
          pure ((label, blob) :: more)

structure Snapshot where
  chain_height : UInt32
  blocks : List Block
  alkanes_blob : Bytes
  esplora_blob : Option Bytes
  tertiary_data : List (String × Bytes)

/-- The blob of the esplora indexer; an empty one is none. -/
def parse_esplora (data : Bytes) : Except String (Option Bytes × Bytes) :=
  match chunks.read data with
  | .error cut => .error (truncated "esplora blob" cut)
  | .ok ([], data) => .ok (none, data)
  | .ok (blob, data) => .ok (some blob, data)

def parse_stores (chain_height : UInt32) (blocks : List Block) (data : Bytes) : Except String Snapshot :=
  match chunks.read data with
  | .error cut => .error (truncated "alkanes blob" cut)
  | .ok (alkanes_blob, data) => do
    let (esplora_blob, data) ← parse_esplora data
    match chunks.read_nat data with
    | none => .error "truncated num_tertiary"
    | some (num_tertiary, data) => do
      let tertiary_data ← parse_tertiaries num_tertiary 0 data
      pure { chain_height, blocks, alkanes_blob, esplora_blob, tertiary_data }

/-- Read a snapshot; nothing is changed before all of it is read. -/
def parse_snapshot (data : Bytes) : Except String Snapshot :=
  if data.length < 16 then .error "blob too small"
  else if data.take 4 ≠ MAGIC then .error "invalid magic (expected DNET)"
  else
    match chunks.read_nat (data.drop 4) with
    | none => .error "blob too small"
    | some (version, data) =>
      if version ≠ 1 then .error ("unsupported version: " ++ toString version)
      else
        match chunks.read_nat data with
        | none => .error "blob too small"
        | some (chain_height, data) =>
          match chunks.read_nat data with
          | none => .error "truncated num_blocks"
          | some (num_blocks, data) => do
            let (blocks, data) ← parse_blocks keys num_blocks 0 data
            parse_stores (UInt32.ofNat chain_height) blocks data

def parse_err (message : String) : String := "importState: " ++ message

/-- Connect the blocks of a snapshot, counted from `i` on. -/
def replay_blocks : Nat → List Block → TestChain → Outcome TestChain
  | _, [], chain => .ok chain
  | i, block :: rest, chain => do
    let chain ← (chain.connect_block keys block).mapError fun e =>
      match e with
      | .invalid message => .invalid (parse_err ("replay block " ++ toString i ++ ": " ++ message))
      | .panic why => .panic why
    replay_blocks (i + 1) rest chain

/-- The chain of a snapshot, rebuilt for the key of this server. Its first block is the genesis
    block of the key. -/
def restore_chain (chain : TestChain) (snapshot : Snapshot) : Outcome TestChain :=
  match snapshot.blocks with
  | [] => .ok chain
  | genesis :: rest => do
    let new_chain ← TestChain.new_with_key_wpkh keys chain.coinbase_key
    if new_chain.tip_hash ≠ genesis.header.block_hash keys.hash256 then
      .error (.invalid (parse_err "snapshot genesis does not match this devnet's genesis (different secret key?)"))
    else do
      let new_chain ← replay_blocks keys 1 rest new_chain
      if new_chain.height ≠ as_i32 snapshot.chain_height then
        .error (.invalid (parse_err ("replay ended at height " ++ toString new_chain.height ++
          " but snapshot recorded " ++ toString snapshot.chain_height)))
      else pure new_chain

/-- The stores that a snapshot is restored into; a tertiary indexer by its position. -/
inductive Slot where
  | alkanes
  | esplora
  | tertiary (i : Nat)
  deriving DecidableEq

namespace DevnetState

variable (self : DevnetState)

def storage : Slot → Option WebIndexerStorage
  | .alkanes => some self.alkanes_storage
  | .esplora => self.esplora_storage
  | .tertiary i => (self.tertiary_indexers[i]?).map IndexerInstance.storage

def set_storage (storage : WebIndexerStorage) : Slot → DevnetState
  | .alkanes => { self with alkanes_storage := storage }
  | .esplora => { self with esplora_storage := self.esplora_storage.map fun _ => storage }
  | .tertiary i =>
    { self with tertiary_indexers := self.tertiary_indexers.modify i fun tertiary => { tertiary with storage } }

def slot_name : Slot → String
  | .alkanes => "alkanes"
  | .esplora => "esplora"
  | .tertiary i =>
    match self.tertiary_indexers[i]? with
    | some tertiary => "tertiary '" ++ tertiary.label ++ "'"
    | none => "tertiary"

/-- The blobs of a snapshot with the stores of this server that they are for, in the order of
    their import. A tertiary indexer is found by its label; a blob without a store is skipped. -/
def slots (snapshot : Snapshot) : List (Slot × Bytes) :=
  (.alkanes, snapshot.alkanes_blob) ::
    ((if self.esplora_storage.isSome then snapshot.esplora_blob.toList.map fun blob => (Slot.esplora, blob) else []) ++
      snapshot.tertiary_data.filterMap fun entry =>
        (self.tertiary_indexers.findIdx? fun tertiary => tertiary.label == entry.1).map fun i => (.tertiary i, entry.2))

/-- Import the blobs up to the first that fails. -/
def import_slots : List (Slot × Bytes) → DevnetState → DevnetState × Outcome Unit
  | [], state => (state, .ok ())
  | (slot, blob) :: rest, state =>
    let (storage, result) := WebIndexerStorage.import_bytes blob
    let state := state.set_storage storage slot
    match result with
    | .error e => (state, Except.error (.invalid (parse_err (state.slot_name slot ++ " import: " ++ e))))
    | .ok _ => import_slots rest state

/-- Restore a snapshot: read all of it, rebuild the chain, then import the stores one after the
    other. -/
def import_state (data : Bytes) : DevnetState × Outcome Unit :=
  match parse_snapshot keys data with
  | .error message => (self, .error (.invalid (parse_err message)))
  | .ok snapshot =>
    match restore_chain keys self.chain snapshot with
    | .error e => (self, .error e)
    | .ok chain => import_slots (self.slots snapshot) { self with chain }

end DevnetState

end qubitcoin.web_sys
