import Qubitcoin.Validation.CheckBlock
import Qubitcoin.Validation.Connect
import Qubitcoin.Chain.Params

/-! `qubitcoin-node/chainstate.rs`: the block map, the chainstate manager and the
    acceptance of headers. -/

open qubitcoin primitives transaction block coins params validation_state chain chainparams
  qubitcoin.validation

namespace qubitcoin.chainstate

/-- The arena of block entries with a lookup by hash. -/
structure BlockMap where
  indices : List BlockIndex
  by_hash : HashMap BlockHash Nat

def BlockMap.new : BlockMap := ⟨[], ∅⟩

def BlockMap.find_by_hash (self : BlockMap) (hash : BlockHash) : Option Nat := self.by_hash.lookup hash

/-- The entry at an arena index. The code stops on an index outside the arena,
    which no link, no hash and no chain entry of a manager holds. -/
def BlockMap.get (self : BlockMap) (idx : Nat) : BlockIndex := self.indices.getD idx .new

/-- Change the entry at an arena index in place. -/
def BlockMap.get_mut (self : BlockMap) (idx : Nat) (update : BlockIndex → BlockIndex) : BlockMap :=
  { self with indices := self.indices.modify idx update }

/-- Append an entry. Its arena index is the number of entries before. -/
def BlockMap.insert (self : BlockMap) (index : BlockIndex) : BlockMap :=
  { indices := self.indices ++ [index], by_hash := self.by_hash.insert index.block_hash self.indices.length }

def BlockMap.build_skip_pointer (self : BlockMap) (arena_idx : Nat) : BlockMap :=
  let height := (self.get arena_idx).height
  if height < 1 then self
  else
    match (self.get arena_idx).prev with
    | none => self
    | some prev_idx =>
      match get_ancestor self.indices prev_idx (get_skip_height height) with
      | none => self
      | some skip_idx => self.get_mut arena_idx fun index => { index with skip := some skip_idx }

/-- Block index, active chain and coins. The block store of the unit tests is
    empty in the node; blocks come back from a reader. -/
structure ChainstateManager where
  params : ChainParams
  block_index : BlockMap
  chain : Chain
  coins_tip : CoinsViewCache
  assume_valid : Option BlockHash
  best_valid_tip : Option (Nat × ArithUint256)
  dirty_indices : Finset Nat

namespace ChainstateManager

def new (params : ChainParams) (coins_view : CoinsViewDB) : ChainstateManager :=
  { params, block_index := .new, chain := .new, coins_tip := .new coins_view, assume_valid := none
    best_valid_tip := none, dirty_indices := ∅ }

def tip (self : ChainstateManager) : Option Nat := self.chain.tip

def height (self : ChainstateManager) : Int := self.chain.height

def entry (self : ChainstateManager) (idx : Nat) : BlockIndex := self.block_index.get idx

def lookup_block_index (self : ChainstateManager) (hash : BlockHash) : Option Nat :=
  self.block_index.find_by_hash hash

def mark_dirty (self : ChainstateManager) (arena_idx : Nat) : ChainstateManager :=
  { self with dirty_indices := insert arena_idx self.dirty_indices }

/-- Change an entry and record it as dirty. -/
def update_entry (self : ChainstateManager) (idx : Nat) (update : BlockIndex → BlockIndex) :
    ChainstateManager :=
  { self with
    block_index := self.block_index.get_mut idx update
    dirty_indices := insert idx self.dirty_indices }

def set_undo_pos (self : ChainstateManager) (hash : BlockHash) (undo_pos : UInt32) : ChainstateManager :=
  match self.block_index.find_by_hash hash with
  | some idx => self.update_entry idx fun index => { index with undo_pos }
  | none => self

/-- What `process_block` of the node does before it hands a block over: record
    where the block was written, if its header is known. -/
def set_file_pos (self : ChainstateManager) (hash : BlockHash) (file : Int32) (data_pos : UInt32) :
    ChainstateManager :=
  match self.lookup_block_index hash with
  | some idx => self.update_entry idx fun index => { index with file, data_pos }
  | none => self

/-- The callback of the code for a block index: its parent. -/
def get_prev (self : ChainstateManager) (idx : Nat) : Option Nat := (self.entry idx).prev

/-- Make the active chain end at an entry, and its hash the best block of the coins. -/
def reset_active_chain_to (self : ChainstateManager) (arena_idx : Nat) : ChainstateManager :=
  { self with
    chain := self.chain.set_tip_with arena_idx (self.entry arena_idx).height self.get_prev
    coins_tip := self.coins_tip.set_best_block (self.entry arena_idx).block_hash }

/-- Scripts are skipped for the assumed-valid block and its ancestors. -/
def should_skip_scripts (self : ChainstateManager) (arena_idx : Nat) : Bool :=
  match self.assume_valid with
  | none => false
  | some assume_hash =>
    if (self.entry arena_idx).block_hash == assume_hash then true
    else
      match self.block_index.find_by_hash assume_hash with
      | none => false
      | some assume_idx =>
        let block_height := (self.entry arena_idx).height
        let assume_height := (self.entry assume_idx).height
        if assume_height < block_height then false
        else get_ancestor self.block_index.indices assume_idx block_height == some arena_idx

variable (env : Env)

def genesis_index (genesis : Block) : BlockIndex :=
  let index := BlockIndex.from_header env.hash256 genesis.header 0
  { index with
    chain_work := get_block_proof index
    tx_count := UInt32.ofNat genesis.vtx.length
    chain_tx_count := UInt64.ofNat genesis.vtx.length
    status := (index.status.raise_validity BlockStatus.VALID_SCRIPTS).insert BlockStatus.HAVE_DATA
    time_max := genesis.header.time }

/-- The outputs of the first transaction of the genesis block are coins. -/
def add_genesis_coins (coins_tip : CoinsViewCache) (genesis : Block) : Except Panic CoinsViewCache :=
  match genesis.vtx with
  | [] => .ok coins_tip
  | coinbase :: _ => add_coins coins_tip coinbase 0 true

/-- Start the chain at its genesis block, unless that is known. -/
def load_genesis_block (self : ChainstateManager) (genesis : Block) :
    Except (Failure String) ChainstateManager :=
  let hash := genesis.block_hash env.hash256
  if hash ≠ self.params.genesis_block_hash then
    .error (.invalid ("Genesis block hash mismatch: expected " ++
      BitVec.toHex self.params.genesis_block_hash ++ ", got " ++ BitVec.toHex hash))
  else if (self.block_index.find_by_hash hash).isSome then .ok self
  else
    let index := genesis_index env genesis
    let arena_idx := self.block_index.indices.length
    match add_genesis_coins self.coins_tip genesis with
    | .error why => .error (.panic why)
    | .ok coins_tip => .ok { self with
        block_index := (self.block_index.insert index).build_skip_pointer arena_idx
        chain := self.chain.set_tip arena_idx 0
        coins_tip := coins_tip.set_best_block hash
        best_valid_tip := some (arena_idx, index.chain_work)
        dirty_indices := insert arena_idx self.dirty_indices }

/-- The parent of a header: known and not failed. -/
def find_parent (self : ChainstateManager) (header : BlockHeader) :
    Except (Failure BlockValidationState) Nat :=
  match self.block_index.find_by_hash header.prev_blockhash with
  | none => .error (block_invalid .InvalidHeader "bad-prevblk" "previous block not found")
  | some prev_idx =>
    if (self.entry prev_idx).status.has_failed then
      .error (block_invalid .InvalidHeader "bad-prevblk" "previous block is invalid")
    else .ok prev_idx

/-- The checks of a header that is not known. The result is its parent. -/
def check_new_header (self : ChainstateManager) (header : BlockHeader) (now : Int) :
    Except (Failure BlockValidationState) Nat := do
  check_block_header env header self.params.consensus
  let prev_idx ← self.find_parent header
  contextual_check_block_header_with_arena header (self.entry prev_idx) self.params.consensus
    self.block_index.indices prev_idx now
  .ok prev_idx

/-- The entry of a header on top of its parent. -/
def child_index (self : ChainstateManager) (header : BlockHeader) (prev_idx : Nat) : BlockIndex :=
  let prev := self.entry prev_idx
  let index := BlockIndex.from_header env.hash256 header (prev.height + 1)
  { index with
    prev := some prev_idx
    chain_work := prev.chain_work + get_block_proof index
    time_max := max prev.time_max header.time
    status := index.status.raise_validity BlockStatus.VALID_TREE }

/-- Append the entry of a checked header. -/
def add_header (self : ChainstateManager) (header : BlockHeader) (prev_idx : Nat) : ChainstateManager :=
  let arena_idx := self.block_index.indices.length
  { self with
    block_index := (self.block_index.insert (self.child_index env header prev_idx)).build_skip_pointer arena_idx
    dirty_indices := insert arena_idx self.dirty_indices }

/-- Accept a header: the index of its entry, which is new unless the header is
    known. `now` is the system time. -/
def accept_block_header (self : ChainstateManager) (header : BlockHeader) (now : Int) :
    Except (Failure BlockValidationState) Nat × ChainstateManager :=
  match self.block_index.find_by_hash (header.block_hash env.hash256) with
  | some idx => (.ok idx, self)
  | none =>
    match self.check_new_header env header now with
    | .error e => (.error e, self)
    | .ok prev_idx => (.ok self.block_index.indices.length, self.add_header env header prev_idx)

end ChainstateManager

end qubitcoin.chainstate

/-! `qubitcoin-node/chainstate.rs`: processing a block and activating the best
    chain. -/

namespace qubitcoin.chainstate

/-- What the block reader returns for file, data and undo positions while a call
    is going on; `none` where no reader is set. -/
abbrev BlockReader := Option (Int32 → UInt32 → UInt32 → Option (Block × BlockUndo))

namespace ChainstateManager

def read_block (self : ChainstateManager) (block_reader : BlockReader) (idx : Nat) :
    Option (Block × BlockUndo) :=
  block_reader.bind fun reader =>
    reader (self.entry idx).file (self.entry idx).data_pos (self.entry idx).undo_pos

/-- A block that is rejected is marked as failed. A panic unwinds before that. -/
def mark_failed (self : ChainstateManager) (idx : Nat) :
    Failure BlockValidationState → ChainstateManager
  | .invalid _ => self.update_entry idx fun index =>
      { index with status := index.status.insert BlockStatus.FAILED_VALID }
  | .panic _ => self

/-- A block that is connected is marked as fully valid, unless it has failed, and
    becomes the best tip if it has more work. -/
def mark_connected (self : ChainstateManager) (idx : Nat) : ChainstateManager :=
  let self := self.update_entry idx fun index =>
    { index with status := index.status.raise_validity BlockStatus.VALID_SCRIPTS }
  let work := (self.entry idx).chain_work
  if self.best_valid_tip.all fun best => decide (best.2 < work) then
    { self with best_valid_tip := some (idx, work) }
  else self

/-- Median time past by height on the active chain. -/
def mtp_lookup (self : ChainstateManager) (default : Int) (height : Int) : Int :=
  match self.chain.get_block_index height with
  | some idx => compute_mtp self.block_index.indices idx
  | none => default

/-- The loop of `build_chain_path` from a height down. -/
def build_chain_path_loop (get_prev : Nat → Option Nat) : Nat → Nat → List Nat → List Nat
  | h, current, path =>
    match get_prev current, h with
    | some prev, h + 1 => build_chain_path_loop get_prev h prev (path.set (h + 1) current)
    | _, h => path.set h current

/-- Arena indices by height, from genesis to a block. -/
def build_chain_path (self : ChainstateManager) (tip_idx : Nat) : List Nat :=
  let tip_height := (self.entry tip_idx).height.toNat
  build_chain_path_loop self.get_prev tip_height tip_idx (List.replicate (tip_height + 1) 0)

/-- The heights from `high` down to the one above `low`. -/
def heights_down (low high : Int) : List Int :=
  (List.range (high - low).toNat).map fun i : Nat => high - i

/-- The heights above `low` up to `high`. -/
def heights_up (low high : Int) : List Int :=
  (List.range (high - low).toNat).map fun i : Nat => low + 1 + i

/-- Whether the active chain and a path have the same block at a height. -/
def same_block_at (self : ChainstateManager) (new_chain : List Nat) (h : Int) : Bool :=
  match self.chain.get_block_index h with
  | some current_idx => new_chain[h.toNat]? == some current_idx
  | none => false

/-- The highest height at which the active chain and a path have the same block,
    or -1. -/
def find_fork_height (self : ChainstateManager) (new_chain : List Nat) (current_height : Int) : Int :=
  let min_height := min current_height (new_chain.length - 1)
  ((heights_down (-1) min_height).find? (self.same_block_at new_chain)).getD (-1)

/-- The disconnecting loop. A block that cannot be read is skipped, and the result
    of `disconnect_block` is not looked at. -/
def disconnect_loop (self : ChainstateManager) (block_reader : BlockReader) :
    List Int → CoinsViewCache → Except Panic CoinsViewCache
  | [], view => .ok view
  | h :: rest, view =>
    match (self.chain.get_block_index h).bind (self.read_block block_reader) with
    | none => self.disconnect_loop block_reader rest view
    | some (block, undo) => do
      let (_, view) ← disconnect_block block h view undo
      self.disconnect_loop block_reader rest view

variable (env : Env)

/-- Connect the block of an entry of the new path. A block that cannot be read is
    skipped. -/
def connect_at (self : ChainstateManager) (block_reader : BlockReader) (h : Int) (idx : Nat) :
    Except (Failure BlockValidationState) Unit × ChainstateManager :=
  match self.read_block block_reader idx with
  | none => (.ok (), self)
  | some (block, _) =>
    match connect_block env block h self.coins_tip self.params.consensus (some (self.mtp_lookup 0))
        (self.should_skip_scripts idx) with
    | (.error e, coins_tip) => (.error e, { self with coins_tip }.mark_failed idx e)
    | (.ok _, coins_tip) =>
      -- A block that is fully valid already is only replayed.
      if (self.entry idx).is_valid BlockStatus.VALID_SCRIPTS then (.ok (), { self with coins_tip })
      else (.ok (), { self with coins_tip }.mark_connected idx)

/-- The connecting loop, which passes over the block that the caller has just
    connected. -/
def connect_loop (block_reader : BlockReader) (just_connected : Option Nat) (new_chain : List Nat) :
    List Int → ChainstateManager → Except (Failure BlockValidationState) Unit × ChainstateManager
  | [], self => (.ok (), self)
  | h :: rest, self =>
    match new_chain[h.toNat]? with
    | none => (.ok (), self)
    | some idx =>
      if just_connected = some idx then connect_loop block_reader just_connected new_chain rest self
      else
        match self.connect_at env block_reader h idx with
        | (.error e, self) => (.error e, self)
        | (.ok (), self) => connect_loop block_reader just_connected new_chain rest self

/-- Disconnect the active chain down to the fork and connect the path to the best
    tip. -/
def reorganize (self : ChainstateManager) (block_reader : BlockReader) (just_connected : Option Nat)
    (best_idx : Nat) : Except (Failure BlockValidationState) Unit × ChainstateManager :=
  let best_height := (self.entry best_idx).height
  let new_chain := self.build_chain_path best_idx
  let current_height := self.chain.height
  let fork_height := self.find_fork_height new_chain current_height
  match self.disconnect_loop block_reader (heights_down fork_height current_height) self.coins_tip with
  | .error why => (.error (.panic why), self)
  | .ok coins_tip =>
    match connect_loop env block_reader just_connected new_chain (heights_up fork_height best_height)
        { self with coins_tip } with
    | (.error e, self) => (.error e, self)
    | (.ok (), self) => (.ok (), { self with
        chain := self.chain.set_tip_with best_idx best_height self.get_prev
        coins_tip := self.coins_tip.set_best_block (self.entry best_idx).block_hash })

def activate_best_chain (self : ChainstateManager) (block_reader : BlockReader) (just_connected : Option Nat) :
    Except (Failure BlockValidationState) Unit × ChainstateManager :=
  match self.best_valid_tip with
  | none => (.ok (), self)
  | some (best_idx, _) =>
    if self.chain.tip = some best_idx then (.ok (), self)
    else self.reorganize env block_reader just_connected best_idx

/-- A block whose body passed its checks: count its transactions. The sums of a
    chain stay below `2 ^ 64`. -/
def receive_data (self : ChainstateManager) (block : Block) (idx : Nat) : ChainstateManager :=
  let parent_chain_tx := ((self.entry idx).prev.map fun p => (self.entry p).chain_tx_count).getD 0
  self.update_entry idx fun index => { index with
    tx_count := UInt32.ofNat block.vtx.length
    status := (index.status.insert BlockStatus.HAVE_DATA).raise_validity BlockStatus.VALID_TRANSACTIONS
    chain_tx_count := parent_chain_tx + UInt64.ofNat block.vtx.length }

/-- The contextual checks of a body, which a block without a parent does not get. -/
def check_body_context (self : ChainstateManager) (block : Block) (idx : Nat) :
    Except (Failure BlockValidationState) Unit :=
  match (self.entry idx).prev with
  | none => .ok ()
  | some prev_idx =>
    let ancestors := collect_ancestors_from self.block_index.indices 11 (some prev_idx)
    contextual_check_block env block (self.entry prev_idx).height
      (BlockIndex.get_median_time_past ancestors) self.params.consensus

/-- Whether a block is fully valid and on the active chain. -/
def is_connected (self : ChainstateManager) (idx : Nat) : Bool :=
  (self.entry idx).is_valid BlockStatus.VALID_SCRIPTS &&
    self.chain.get_block_index (self.entry idx).height == some idx

/-- Connect a new block to the coins, whatever the active chain is. -/
def connect_new_block (self : ChainstateManager) (block : Block) (idx : Nat) :
    Except (Failure BlockValidationState) BlockUndo × CoinsViewCache :=
  connect_block env block (self.entry idx).height self.coins_tip self.params.consensus
    (some (self.mtp_lookup block.header.time.toNat)) (self.should_skip_scripts idx)

def process_body (self : ChainstateManager) (block : Block) (idx : Nat) (block_reader : BlockReader) :
    Except (Failure BlockValidationState) (Bool × Option BlockUndo) × ChainstateManager :=
  match check_block env block self.params.consensus true with
  | .error e => (.error e, self.mark_failed idx e)
  | .ok () =>
    let self := self.receive_data block idx
    match self.check_body_context env block idx with
    | .error e => (.error e, self.mark_failed idx e)
    | .ok () =>
      match self.connect_new_block env block idx with
      | (.error e, coins_tip) => (.error e, { self with coins_tip }.mark_failed idx e)
      | (.ok undo, coins_tip) =>
        match ({ self with coins_tip }.mark_connected idx).activate_best_chain env block_reader (some idx) with
        | (.error e, self) => (.error e, self)
        | (.ok (), self) => (.ok (decide (self.chain.tip = some idx), some undo), self)

/-- Process a block: its header, its body, its connection to the coins, and the
    choice of the best chain. The flag says whether the block is the active tip. -/
def process_new_block (self : ChainstateManager) (block : Block) (now : Int) (block_reader : BlockReader) :
    Except (Failure BlockValidationState) (Bool × Option BlockUndo) × ChainstateManager :=
  match self.accept_block_header env block.header now with
  | (.error e, self) => (.error e, self)
  | (.ok idx, self) =>
    if self.is_connected idx then (.ok (decide (self.chain.tip = some idx), none), self)
    else self.process_body env block idx block_reader

end ChainstateManager

end qubitcoin.chainstate
