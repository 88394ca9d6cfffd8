import Qubitcoin.Chainstate.Sound
import Qubitcoin.Consensus.Wire
import Qubitcoin.Indexer.Manager
import Qubitcoin.Mempool.Accept

/-! `qubitcoin-node/tx_index_db.rs`: where the transactions of the active chain are on
    disk. -/

open qubitcoin primitives block_index_db

namespace qubitcoin.tx_index_db

/-- The prefix of the keys: `b't'`. -/
def KEY_TX_INDEX : UInt8 := 0x74

def VALUE_SIZE : Nat := 12

def tx_index_key (txid : Txid) : Bytes := KEY_TX_INDEX :: txid.data

/-- A transaction with the position of its block and its place in the block. -/
abbrev TxPosition := Txid × Int32 × UInt32 × UInt32

abbrev TxIndexDB := HashMap Bytes Bytes

def tx_index_value (position : Int32 × UInt32 × UInt32) : Bytes :=
  u32_bytes position.1.toUInt32 ++ (u32_bytes position.2.1 ++ u32_bytes position.2.2)

def write_tx_positions (db : TxIndexDB) (entries : List TxPosition) : TxIndexDB :=
  entries.foldl (fun db entry => db.insert (tx_index_key entry.1) (tx_index_value entry.2)) db

def read_tx_pos (db : TxIndexDB) (txid : Txid) : Option (Int32 × UInt32 × UInt32) :=
  match db.lookup (tx_index_key txid) with
  | some data =>
    if data.length = VALUE_SIZE then
      some ((u32_from_bytes (data.take 4)).toInt32, u32_from_bytes ((data.drop 4).take 4), u32_from_bytes (data.drop 8))
    else none
  | none => none

theorem tx_index_key_injective {txid other : Txid} (hkey : tx_index_key txid = tx_index_key other) : txid = other := by
  have hdata : txid.data = other.data := (List.cons.inj hkey).2
  rw [← Uint256.from_bytes_data txid, hdata, Uint256.from_bytes_data]

theorem length_tx_index_value (position : Int32 × UInt32 × UInt32) : (tx_index_value position).length = VALUE_SIZE := by
  simp [tx_index_value, VALUE_SIZE]

theorem read_tx_pos_insert (db : TxIndexDB) (txid other : Txid) (position : Int32 × UInt32 × UInt32) :
    read_tx_pos (db.insert (tx_index_key txid) (tx_index_value position)) other =
      if other = txid then some position else read_tx_pos db other := by
  unfold read_tx_pos
  by_cases hsame : other = txid
  · subst hsame
    obtain ⟨file, data_pos, tx_idx⟩ := position
    have hfile : file.toUInt32.toInt32 = file := rfl
    rw [AList.lookup_insert, if_pos rfl]
    dsimp only
    rw [if_pos (length_tx_index_value _)]
    unfold tx_index_value
    rw [List.take_left' (length_u32_bytes _), List.drop_left' (length_u32_bytes _),
      List.take_left' (length_u32_bytes _), ← List.append_assoc,
      List.drop_left' (by rw [List.length_append, length_u32_bytes, length_u32_bytes]), u32_from_bytes_u32_bytes,
      u32_from_bytes_u32_bytes, u32_from_bytes_u32_bytes, hfile]
  · have hkey : tx_index_key other ≠ tx_index_key txid := fun heq => hsame (tx_index_key_injective heq)
    rw [AList.lookup_insert_ne hkey, if_neg hsame]

theorem read_tx_pos_write (entries : List TxPosition) (txid : Txid) : ∀ db : TxIndexDB,
    read_tx_pos (write_tx_positions db entries) txid =
      ((entries.reverse.find? fun entry => entry.1 == txid).map Prod.snd).or (read_tx_pos db txid) := by
  induction entries using List.reverseRecOn with
  | nil => exact fun _ => rfl
  | append_singleton entries entry ih =>
    intro db
    unfold write_tx_positions at ih ⊢
    rw [List.foldl_append, List.foldl_cons, List.foldl_nil, read_tx_pos_insert, ih, List.reverse_concat,
      List.find?_cons]
    by_cases hsame : txid = entry.1
    · simp [hsame]
    · have hne : (entry.1 == txid) = false := by simpa using fun heq => hsame heq.symm
      rw [if_neg hsame, hne]

end qubitcoin.tx_index_db

/-! `qubitcoind/main.rs`: the node behind the network, with its block and transaction
    handlers. -/

open qubitcoin script transaction block coins validation_state chainstate qubitcoin.validation
  mempool script_check tx_index_db indexer

namespace qubitcoin

def Failure.mapInvalid {S T : Type} (f : S → T) : Failure S → Failure T
  | .invalid state => .invalid (f state)
  | .panic why => .panic why

end qubitcoin

namespace qubitcoin.mempool

/-- Why the scripts of a transaction are refused, with what the text shows. -/
inductive ScriptReject where
  | coinbase
  | resolved (outputs inputs : Nat)
  | mandatory_script_verify_flag_failed (input_index : Nat) (error : String)
  deriving DecidableEq, Repr

/-- The checks of all inputs. Every input has its output at its own index. -/
def mempool_script_checks (tx : Transaction) (spent_outputs : List TxOut) : List ScriptCheck :=
  (tx.vin.zip spent_outputs).zipIdx.map fun ((input, output), input_index) =>
    { script_pubkey := output.script_pubkey
      script_sig := input.script_sig
      witness := input.witness
      flags := ScriptVerifyFlags.STANDARD_SCRIPT_VERIFY_FLAGS
      amount := output.value
      tx_index := 0
      input_index
      tx := some tx
      precomputed := some ⟨tx, spent_outputs⟩ }

/-- Verify the input scripts of a transaction, given the output spent by each input. -/
def verify_mempool_tx_scripts (env : Env) (tx : Transaction) (spent_outputs : List TxOut) :
    Except ScriptReject Unit :=
  if tx.is_coinbase then .error .coinbase
  else if spent_outputs.length ≠ tx.vin.length then .error (.resolved spent_outputs.length tx.vin.length)
  else
    (verify_scripts_parallel env (mempool_script_checks tx spent_outputs)).mapError fun e =>
      .mandatory_script_verify_flag_failed e.input_index e.error

end qubitcoin.mempool

namespace qubitcoin.qubitcoind

structure DiskBlockPos where
  file : Int32
  pos : UInt32
  deriving DecidableEq, Repr

/-- What the flat files hold. The file manager chooses the position of each write. -/
structure BlockFiles where
  blocks : HashMap (Int32 × UInt32) Block
  undos : HashMap (Int32 × UInt32) BlockUndo

def BlockFiles.read_block (self : BlockFiles) (file : Int32) (pos : UInt32) : Option Block :=
  if file < 0 then none else self.blocks.lookup (file, pos)

def BlockFiles.read_undo (self : BlockFiles) (file : Int32) (pos : UInt32) : Option BlockUndo :=
  if file < 0 then none else self.undos.lookup (file, pos)

/-- The reader that startup hands to the chainstate. -/
def BlockFiles.reader (self : BlockFiles) : BlockReader :=
  some fun file data_pos undo_pos => do
    let block ← self.read_block file data_pos
    let undo ← self.read_undo file undo_pos
    pure (block, undo)

/-- The state of the node. The coin database is the base of the coins of the chainstate. -/
structure LiveNodeInterface where
  chainstate : ChainstateManager
  mempool : TxMemPool
  block_files : BlockFiles
  block_index_db : BlockIndexDB
  tx_index_db : TxIndexDB
  blocks_since_flush : Nat
  dbcache_limit : UInt64
  pending_tx_index : List TxPosition
  indexer_manager : Option IndexerManager

/-- What the world outside answers in a call: the time, the positions that the file manager
    gives out (`none` is an error of a write), the orders in which the coins cache and the
    dirty set are iterated, whether the databases accept a batch, and the runtime of the
    indexers. -/
structure World where
  now : Int
  block_pos : Option DiskBlockPos
  undo_pos : Option UInt32
  order : List (Σ _ : OutPoint, CoinsCacheEntry)
  coins_written : Bool
  listed : List Nat
  index_written : Bool
  tx_index_written : Bool
  runtime : Runtime

/-- Why a block is not processed. -/
inductive BlockError where
  | deserialize (e : serialize.Error)
  | block_file_write
  | chainstate (state : BlockValidationState)
  | undo_file_write
  deriving DecidableEq

/-- Why a transaction is refused. -/
inductive TransactionError where
  | deserialize (e : serialize.Error)
  | missing_inputs (missing : Nat)
  | script (reason : ScriptReject)
  | rejected (reason : RejectReason)
  deriving DecidableEq

namespace LiveNodeInterface

/-- A node with a manager, and nothing else. -/
def of_manager (chainstate : ChainstateManager) : LiveNodeInterface where
  chainstate
  mempool := .new
  block_files := ⟨∅, ∅⟩
  block_index_db := ∅
  tx_index_db := ∅
  blocks_since_flush := 0
  dbcache_limit := 1024 * 1024 * 1024
  pending_tx_index := []
  indexer_manager := none

/-- The periodic flush: coins, block index, transaction index. No result is looked at. -/
def flush (self : LiveNodeInterface) (world : World) : LiveNodeInterface :=
  let (_, coins_tip) := self.chainstate.coins_tip.flush_to world.order world.coins_written
  let dirty := self.chainstate.dirty_block_indices world.listed
  { self with
    chainstate := { self.chainstate with coins_tip }.clear_dirty
    block_index_db := if world.index_written then write_block_indices self.block_index_db dirty else self.block_index_db
    tx_index_db :=
      if world.tx_index_written then write_tx_positions self.tx_index_db self.pending_tx_index else self.tx_index_db
    pending_tx_index := []
    blocks_since_flush := 0 }

def block_positions (block : Block) (pos : DiskBlockPos) : List TxPosition :=
  block.vtx.zipIdx.map fun (tx, i) => (tx.txid, pos.file, pos.pos, UInt32.ofNat i)

def need_flush (self : LiveNodeInterface) : Bool :=
  decide (2000 ≤ self.blocks_since_flush) || decide (self.dbcache_limit < self.chainstate.coins_tip.usage)

/-- What follows when the block is the active tip. -/
def on_accepted (self : LiveNodeInterface) (block : Block) (data : List UInt8) (pos : DiskBlockPos) (world : World) :
    LiveNodeInterface :=
  let self := { self with
    pending_tx_index := self.pending_tx_index ++ block_positions block pos
    blocks_since_flush := self.blocks_since_flush + 1
    indexer_manager := self.indexer_manager.map fun manager : IndexerManager =>
      manager.on_block_connected world.runtime (as_u32 self.chainstate.height) data }
  if self.need_flush then self.flush world else self

/-- Write the undo data of a block and record its position. -/
def write_undo (self : LiveNodeInterface) (hash : BlockHash) (file : Int32) (undo : BlockUndo) (undo_pos : UInt32) :
    LiveNodeInterface :=
  { self with
    block_files := { self.block_files with undos := self.block_files.undos.insert (file, undo_pos) undo }
    chainstate := self.chainstate.set_undo_pos hash undo_pos }

/-- Write a block and record its position, if its header is known. -/
def write_block (self : LiveNodeInterface) (hash : BlockHash) (block : Block) (pos : DiskBlockPos) : LiveNodeInterface :=
  { self with
    block_files := { self.block_files with blocks := self.block_files.blocks.insert (pos.file, pos.pos) block }
    chainstate := self.chainstate.set_file_pos hash pos.file pos.pos }

variable (env : Env)

def after_process (self : LiveNodeInterface) (block : Block) (data : List UInt8) (pos : DiskBlockPos) (world : World)
    (accepted : Bool) : Option BlockUndo → Except (Failure BlockError) Bool × LiveNodeInterface
  | none => (.ok accepted, if accepted then self.on_accepted block data pos world else self)
  | some undo =>
    match world.undo_pos with
    | none => (.error (.invalid .undo_file_write), self)
    | some undo_pos =>
      let self := self.write_undo (block.block_hash env.hash256) pos.file undo undo_pos
      (.ok accepted, if accepted then self.on_accepted block data pos world else self)

/-- Process the bytes of a block. Bytes after the block are not looked at. -/
def process_block (self : LiveNodeInterface) (data : List UInt8) (world : World) :
    Except (Failure BlockError) Bool × LiveNodeInterface :=
  match (Block.decode env.hash256).run data with
  | .error e => (.error (.invalid (.deserialize e)), self)
  | .ok (block, _) =>
    match world.block_pos with
    | none => (.error (.invalid .block_file_write), self)
    | some pos =>
      let self := self.write_block (block.block_hash env.hash256) block pos
      match self.chainstate.process_new_block env block world.now self.block_files.reader with
      | (.error e, chainstate) => (.error (Failure.mapInvalid .chainstate e), { self with chainstate })
      | (.ok (accepted, block_undo), chainstate) =>
        { self with chainstate }.after_process env block data pos world accepted block_undo

/-- The output at an outpoint: that of a coin, or else that of a transaction of the pool. -/
def spent_output (mempool : TxMemPool) (outpoint : OutPoint) : Option Coin → Option TxOut
  | some coin => some coin.tx_out
  | none => (mempool.get outpoint.hash).bind fun parent_tx => parent_tx.vout[outpoint.n.toNat]?

/-- What the input loop has found. -/
structure Resolved where
  total_in : Int
  spent_outputs : List TxOut
  missing : Nat

/-- The input loop of `process_transaction`. Inputs with a null outpoint are passed over. -/
def resolve_inputs (mempool : TxMemPool) : List TxIn → Resolved → CoinsViewCache →
    Except (Failure TransactionError) Resolved × CoinsViewCache
  | [], found, coins => (.ok found, coins)
  | input :: rest, found, coins =>
    if input.prevout.is_null then resolve_inputs mempool rest found coins
    else
      let (coin, coins) := coins.fetch_coin input.prevout
      match spent_output mempool input.prevout coin with
      | none => resolve_inputs mempool rest { found with missing := found.missing + 1 } coins
      | some output =>
        match checked .i64 (found.total_in + output.value) with
        | .error e => (.error e, coins)
        | .ok total_in =>
          resolve_inputs mempool rest { found with total_in, spent_outputs := found.spent_outputs ++ [output] } coins

def sum_outputs : Int → List TxOut → Except (Failure TransactionError) Int
  | total_out, [] => .ok total_out
  | total_out, output :: rest => do
    let total_out ← checked .i64 (total_out + output.value)
    sum_outputs total_out rest

/-- From the resolved inputs on: the pool with the transaction. -/
def admission (self : LiveNodeInterface) (tx : Transaction) (found : Resolved) :
    Except (Failure TransactionError) TxMemPool := do
  require (found.missing == 0) (.invalid (.missing_inputs found.missing))
  (verify_mempool_tx_scripts env tx found.spent_outputs).mapError fun reason => .invalid (.script reason)
  let total_out ← sum_outputs 0 tx.vout
  let fee ← checked .i64 (found.total_in - total_out)
  (accept_to_mempool self.mempool tx (max 0 fee) (UInt32.ofNat tx.get_virtual_size) self.chainstate.height).mapError
    (Failure.mapInvalid .rejected)

def process_transaction (self : LiveNodeInterface) (data : List UInt8) :
    Except (Failure TransactionError) Bool × LiveNodeInterface :=
  match (deserialize_transaction env.hash256 true).run data with
  | .error e => (.error (.invalid (.deserialize e)), self)
  | .ok (tx, _) =>
    let (result, coins_tip) := resolve_inputs self.mempool tx.vin ⟨0, [], 0⟩ self.chainstate.coins_tip
    let self := { self with chainstate := { self.chainstate with coins_tip } }
    match result with
    | .error e => (.error e, self)
    | .ok found =>
      match self.admission env tx found with
      | .error e => (.error e, self)
      | .ok mempool => (.ok true, { self with mempool })

end LiveNodeInterface

end qubitcoin.qubitcoind

/-! `qubitcoind/main.rs`: what the node keeps on disk, its startup with the recovery after a
    crash, and its shutdown. -/

open qubitcoin.chainparams

namespace qubitcoin.qubitcoind

/-- The databases and files of a node. -/
structure Disk where
  coins_db : CoinsViewDB
  block_index_db : BlockIndexDB
  tx_index_db : TxIndexDB
  block_files : BlockFiles

/-- A new data directory. The coin database has the null hash as its best block. -/
def Disk.empty : Disk := ⟨⟨∅, 0⟩, ∅, ∅, ⟨∅, ∅⟩⟩

/-- What a node leaves behind that stops. -/
def LiveNodeInterface.disk (self : LiveNodeInterface) : Disk :=
  ⟨self.chainstate.coins_tip.base, self.block_index_db, self.tx_index_db, self.block_files⟩

/-- The settings of a node: its network, the assumed-valid block of the network if it has
    one, the limit of its coins cache, and its indexers. -/
structure Settings where
  params : ChainParams
  assumed_valid_block : Option BlockHash
  dbcache_limit : UInt64
  indexer_manager : Option IndexerManager

namespace Startup

variable (env : Env)

def flush_coins (chainstate : ChainstateManager) (world : World) : ChainstateManager :=
  { chainstate with coins_tip := (chainstate.coins_tip.flush_to world.order world.coins_written).2 }

/-- Write the genesis block to the files. A write that fails leaves no position. -/
def write_genesis_block (chainstate : ChainstateManager) (disk : Disk) (genesis : Block) (world : World) :
    ChainstateManager × BlockFiles :=
  match world.block_pos with
  | none => (chainstate, disk.block_files)
  | some pos =>
    (chainstate.set_file_pos (genesis.block_hash env.hash256) pos.file pos.pos,
      { disk.block_files with blocks := disk.block_files.blocks.insert (pos.file, pos.pos) genesis })

/-- The branch without a best block: load genesis, flush the coins, write the block and the
    index. The index entries stay dirty. -/
def start_at_genesis (chainstate : ChainstateManager) (disk : Disk) (world : World) :
    Except (Failure String) (ChainstateManager × BlockIndexDB × BlockFiles) := do
  let genesis := chainstate.params.create_genesis_block env.hash256
  let chainstate ← chainstate.load_genesis_block env genesis
  let (chainstate, block_files) := write_genesis_block env (flush_coins chainstate world) disk genesis world
  let dirty := chainstate.dirty_block_indices world.listed
  pure (chainstate,
    if world.index_written then write_block_indices disk.block_index_db dirty else disk.block_index_db, block_files)

def tip_hash (chainstate : ChainstateManager) : BlockHash :=
  (chainstate.tip.map fun tip => (chainstate.entry tip).block_hash).getD 0

/-- Disconnect the blocks above the best block of the coins, and make it the tip. -/
def rewind (chainstate : ChainstateManager) (block_files : BlockFiles) (utxo_idx : Nat) (world : World) :
    Except (Failure String) ChainstateManager :=
  match chainstate.disconnect_loop block_files.reader
      (ChainstateManager.heights_down (chainstate.entry utxo_idx).height chainstate.height) chainstate.coins_tip with
  | .error why => .error (.panic why)
  | .ok coins_tip => .ok (flush_coins ({ chainstate with coins_tip }.reset_active_chain_to utxo_idx) world)

/-- The branch with a best block: the recovery after a crash, if that block is not the tip of
    the index. -/
def recover (chainstate : ChainstateManager) (disk : Disk) (world : World) :
    Except (Failure String) ChainstateManager :=
  let utxo_best := disk.coins_db.best_block
  if utxo_best = tip_hash chainstate then .ok chainstate
  else
    match chainstate.lookup_block_index utxo_best with
    | some utxo_idx => rewind chainstate disk.block_files utxo_idx world
    | none => .ok chainstate

/-- The chainstate, the index database and the files after one of the two branches. -/
def load_chainstate (params : ChainParams) (disk : Disk) (world : World) :
    Except (Failure String) (ChainstateManager × BlockIndexDB × BlockFiles) :=
  let chainstate := (ChainstateManager.new params disk.coins_db).load_block_index (load_all disk.block_index_db)
  if disk.coins_db.best_block.is_null then start_at_genesis env chainstate disk world
  else do
    let chainstate ← recover chainstate disk world
    pure (chainstate, disk.block_index_db, disk.block_files)

end Startup

def startup (env : Env) (settings : Settings) (disk : Disk) (world : World) :
    Except (Failure String) LiveNodeInterface := do
  let (chainstate, block_index_db, block_files) ← Startup.load_chainstate env settings.params disk world
  pure
    { chainstate := { chainstate with assume_valid := settings.assumed_valid_block.or chainstate.assume_valid }
      mempool := .new
      block_files
      block_index_db
      tx_index_db := disk.tx_index_db
      blocks_since_flush := 0
      dbcache_limit := settings.dbcache_limit
      pending_tx_index := []
      indexer_manager := settings.indexer_manager }

/-- What a graceful shutdown writes: the coins and the block index. -/
def LiveNodeInterface.shutdown (self : LiveNodeInterface) (world : World) : Disk :=
  let chainstate := Startup.flush_coins self.chainstate world
  let dirty := self.chainstate.dirty_block_indices world.listed
  { coins_db := chainstate.coins_tip.base
    block_index_db := if world.index_written then write_block_indices self.block_index_db dirty else self.block_index_db
    tx_index_db := self.tx_index_db
    block_files := self.block_files }

end qubitcoin.qubitcoind
