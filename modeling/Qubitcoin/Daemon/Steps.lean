import Qubitcoin.Chainstate.Replayed
import Qubitcoin.Daemon.Interface

/-! What a call of `process_block` can do to the node, case by case. -/

open qubitcoin primitives transaction block coins chain validation_state chainstate
  qubitcoin.validation block_index_db tx_index_db indexer mempool chainparams

namespace qubitcoin.qubitcoind.LiveNodeInterface

variable (env : Env)

def received (self : LiveNodeInterface) (block : Block) (pos : DiskBlockPos) : LiveNodeInterface :=
  self.write_block (block.block_hash env.hash256) block pos

/-- The answer of the chainstate to a block. -/
def answer (self : LiveNodeInterface) (block : Block) (pos : DiskBlockPos) (world : World) :
    Except (Failure BlockValidationState) (Bool × Option BlockUndo) × ChainstateManager :=
  (self.received env block pos).chainstate.process_new_block env block world.now
    (self.received env block pos).block_files.reader

/-- The end of a call, by the flag that the chainstate has returned. -/
def finish (self : LiveNodeInterface) (block : Block) (data : List UInt8) (pos : DiskBlockPos) (world : World)
    (accepted : Bool) : LiveNodeInterface :=
  if accepted then self.on_accepted block data pos world else self

/-- The ways through `process_block` with a block that is written, and the node they leave:
    the chainstate reports an error, the undo data is not written, or the call gets to its
    end, without undo data or with it. -/
inductive Handled (self : LiveNodeInterface) (block : Block) (data : List UInt8) (pos : DiskBlockPos) (world : World) :
    LiveNodeInterface → Prop where
  | failed {e : Failure BlockValidationState} {chainstate : ChainstateManager}
      (hanswer : self.answer env block pos world = (.error e, chainstate)) :
      Handled self block data pos world { self.received env block pos with chainstate }
  | not_undone {accepted : Bool} {undo : BlockUndo} {chainstate : ChainstateManager}
      (hanswer : self.answer env block pos world = (.ok (accepted, some undo), chainstate))
      (hundo : world.undo_pos = none) :
      Handled self block data pos world { self.received env block pos with chainstate }
  | known {accepted : Bool} {chainstate : ChainstateManager}
      (hanswer : self.answer env block pos world = (.ok (accepted, none), chainstate)) :
      Handled self block data pos world
        ({ self.received env block pos with chainstate }.finish block data pos world accepted)
  | connected {accepted : Bool} {undo : BlockUndo} {undo_pos : UInt32} {chainstate : ChainstateManager}
      (hanswer : self.answer env block pos world = (.ok (accepted, some undo), chainstate))
      (hundo : world.undo_pos = some undo_pos) :
      Handled self block data pos world
        (({ self.received env block pos with chainstate }.write_undo (block.block_hash env.hash256) pos.file undo
          undo_pos).finish block data pos world accepted)

theorem process_block_handled {self : LiveNodeInterface} {data rest : List UInt8} {world : World} {block : Block}
    {pos : DiskBlockPos} (hread : (Block.decode env.hash256).run data = .ok (block, rest))
    (hpos : world.block_pos = some pos) : Handled env self block data pos world (self.process_block env data world).2 := by
  unfold process_block
  rw [hread]
  dsimp only
  rw [hpos]
  dsimp only
  split
  · next e chainstate hanswer => exact .failed hanswer
  · next accepted block_undo chainstate hanswer =>
    unfold after_process
    cases block_undo with
    | none => exact .known hanswer
    | some undo =>
      dsimp only
      split
      · next hundo => exact .not_undone hanswer hundo
      · next undo_pos hundo => exact .connected hanswer hundo

/-- The blocks that were connected, after a call with the bytes of a block. -/
def record (self : LiveNodeInterface) (stored : StoredBlocks) (data : List UInt8) (world : World) : StoredBlocks :=
  match (Block.decode env.hash256).run data, world.block_pos with
  | .ok (block, _), some pos => store_block env stored block (self.answer env block pos world).1
  | _, _ => stored

theorem process_block_recorded (self : LiveNodeInterface) (stored : StoredBlocks) (data : List UInt8) (world : World) :
    ((self.process_block env data world).2 = self ∧ self.record env stored data world = stored) ∨
    ∃ block rest pos, (Block.decode env.hash256).run data = .ok (block, rest) ∧ world.block_pos = some pos ∧
      Handled env self block data pos world (self.process_block env data world).2 ∧
      self.record env stored data world = store_block env stored block (self.answer env block pos world).1 := by
  unfold record
  cases hread : (Block.decode env.hash256).run data with
  | error e =>
    refine .inl ⟨?_, rfl⟩
    unfold process_block
    rw [hread]
  | ok result =>
    obtain ⟨block, rest⟩ := result
    cases hpos : world.block_pos with
    | none =>
      refine .inl ⟨?_, rfl⟩
      unfold process_block
      rw [hread]
      dsimp only
      rw [hpos]
    | some pos => exact .inr ⟨block, rest, pos, rfl, rfl, process_block_handled env hread hpos, rfl⟩

theorem process_block_cases (self : LiveNodeInterface) (data : List UInt8) (world : World) :
    (self.process_block env data world).2 = self ∨ ∃ block rest pos,
      (Block.decode env.hash256).run data = .ok (block, rest) ∧ world.block_pos = some pos ∧
      Handled env self block data pos world (self.process_block env data world).2 := by
  obtain ⟨hsame, _⟩ | ⟨block, rest, pos, hread, hpos, hhandled, _⟩ :=
    self.process_block_recorded env (fun _ => none) data world
  · exact .inl hsame
  · exact .inr ⟨block, rest, pos, hread, hpos, hhandled⟩

theorem on_accepted_frame (self : LiveNodeInterface) (block : Block) (data : List UInt8) (pos : DiskBlockPos)
    (world : World) :
    (self.on_accepted block data pos world).chainstate.block_index = self.chainstate.block_index ∧
    (self.on_accepted block data pos world).chainstate.chain = self.chainstate.chain ∧
    (self.on_accepted block data pos world).chainstate.best_valid_tip = self.chainstate.best_valid_tip ∧
    (self.on_accepted block data pos world).block_files = self.block_files ∧
    (self.on_accepted block data pos world).mempool = self.mempool ∧
    (self.on_accepted block data pos world).indexer_manager = self.indexer_manager.map (fun manager : IndexerManager =>
      manager.on_block_connected world.runtime (as_u32 self.chainstate.height) data) := by
  unfold on_accepted
  dsimp only
  split
  · exact ⟨rfl, rfl, rfl, rfl, rfl, rfl⟩
  · exact ⟨rfl, rfl, rfl, rfl, rfl, rfl⟩

theorem ne_nil_of_decode {data rest : List UInt8} {block : Block}
    (hread : (Block.decode env.hash256).run data = .ok (block, rest)) : data ≠ [] := by
  rintro rfl
  cases hread

/-- The node that counts an accepted block and hands it to its indexers, before it flushes. -/
def counted (self : LiveNodeInterface) (block : Block) (data : List UInt8) (pos : DiskBlockPos) (world : World) :
    LiveNodeInterface :=
  { self with
    pending_tx_index := self.pending_tx_index ++ block_positions block pos
    blocks_since_flush := self.blocks_since_flush + 1
    indexer_manager := self.indexer_manager.map fun manager : IndexerManager =>
      manager.on_block_connected world.runtime (as_u32 self.chainstate.height) data }

theorem on_accepted_eq (self : LiveNodeInterface) (block : Block) (data : List UInt8) (pos : DiskBlockPos) (world : World) :
    self.on_accepted block data pos world = if (self.counted block data pos world).need_flush
      then (self.counted block data pos world).flush world else self.counted block data pos world := rfl

theorem set_undo_pos_coins_tip (self : ChainstateManager) (hash : BlockHash) (undo_pos : UInt32) :
    (self.set_undo_pos hash undo_pos).coins_tip = self.coins_tip := by
  unfold ChainstateManager.set_undo_pos
  split <;> rfl

/-- What holds with the answer of the chainstate, and is kept by what may follow, holds after the
    call. A flush meets the coins of the answer. -/
theorem Handled.invariant {self after : LiveNodeInterface} {block : Block} {data : List UInt8} {pos : DiskBlockPos}
    {world : World} (hhandled : Handled env self block data pos world after) {P : LiveNodeInterface → Prop}
    (hanswer : P { self.received env block pos with chainstate := (self.answer env block pos world).2 })
    (hundo : ∀ node undo undo_pos, P node →
      P (node.write_undo (block.block_hash env.hash256) pos.file undo undo_pos))
    (hcounted : ∀ node, P node → P (node.counted block data pos world))
    (hflush : ∀ node, P node → node.chainstate.coins_tip = (self.answer env block pos world).2.coins_tip →
      P (node.flush world)) : P after := by
  have hfinish : ∀ {node : LiveNodeInterface} (accepted : Bool), P node →
      node.chainstate.coins_tip = (self.answer env block pos world).2.coins_tip →
      P (node.finish block data pos world accepted) := by
    intro node accepted hnode hcoins
    cases accepted with
    | false => exact hnode
    | true =>
      have hnode_counted := hcounted node hnode
      unfold finish
      rw [if_pos rfl, on_accepted_eq]
      split
      · exact hflush _ hnode_counted hcoins
      · exact hnode_counted
  cases hhandled with
  | failed h => rw [h] at hanswer; exact hanswer
  | not_undone h _ => rw [h] at hanswer; exact hanswer
  | known h =>
    rw [h] at hanswer hfinish
    exact hfinish _ hanswer rfl
  | connected h _ =>
    rw [h] at hanswer hfinish
    exact hfinish _ (hundo _ _ _ hanswer) (set_undo_pos_coins_tip ..)

/-- What a call leaves until the block is accepted. -/
structure Carried (before after : LiveNodeInterface) : Prop where
  mempool : after.mempool = before.mempool
  block_index_db : after.block_index_db = before.block_index_db
  tx_index_db : after.tx_index_db = before.tx_index_db
  blocks_since_flush : after.blocks_since_flush = before.blocks_since_flush
  pending_tx_index : after.pending_tx_index = before.pending_tx_index
  indexer_manager : after.indexer_manager = before.indexer_manager

/-- The chainstate once a block is answered and the position of its undo data is recorded. -/
def settled (self : LiveNodeInterface) (block : Block) (pos : DiskBlockPos) (world : World) : ChainstateManager :=
  match (self.answer env block pos world).1, world.undo_pos with
  | .ok (_, some _), some undo_pos =>
    (self.answer env block pos world).2.set_undo_pos (block.block_hash env.hash256) undo_pos
  | _, _ => (self.answer env block pos world).2

theorem Handled.settled {self after : LiveNodeInterface} {block : Block} {data : List UInt8} {pos : DiskBlockPos}
    {world : World} (hhandled : Handled env self block data pos world after) :
    ∃ mid accepted, Carried self mid ∧ mid.chainstate = self.settled env block pos world ∧
      after = mid.finish block data pos world accepted := by
  unfold LiveNodeInterface.settled
  cases hhandled with
  | @failed e chainstate hanswer =>
    rw [hanswer]
    exact ⟨{ self.received env block pos with chainstate }, false, ⟨rfl, rfl, rfl, rfl, rfl, rfl⟩, rfl, rfl⟩
  | @not_undone accepted undo chainstate hanswer hundo =>
    rw [hanswer, hundo]
    exact ⟨{ self.received env block pos with chainstate }, false, ⟨rfl, rfl, rfl, rfl, rfl, rfl⟩, rfl, rfl⟩
  | @known accepted chainstate hanswer =>
    rw [hanswer]
    exact ⟨{ self.received env block pos with chainstate }, accepted, ⟨rfl, rfl, rfl, rfl, rfl, rfl⟩, rfl, rfl⟩
  | @connected accepted undo undo_pos chainstate hanswer hundo =>
    rw [hanswer, hundo]
    exact ⟨{ self.received env block pos with chainstate }.write_undo (block.block_hash env.hash256) pos.file undo undo_pos,
      accepted, ⟨rfl, rfl, rfl, rfl, rfl, rfl⟩, rfl, rfl⟩

/-- What a call can do to a node that never reorganizes: nothing to its chain; or a block is
    accepted, that is the tip already or is appended. -/
inductive Delivered (self : LiveNodeInterface) (block : Block) (data : List UInt8) (pos : DiskBlockPos) (world : World) :
    LiveNodeInterface → Prop where
  | quiet {after : LiveNodeInterface} (hcarried : Carried self after)
      (hblocks : after.block_files.blocks = self.block_files.blocks.insert (pos.file, pos.pos) block)
      (hhashes : after.chainstate.active_hashes = self.chainstate.active_hashes) :
      Delivered self block data pos world after
  | accepted {node : LiveNodeInterface} (hcarried : Carried self node)
      (hblocks : node.block_files.blocks = self.block_files.blocks.insert (pos.file, pos.pos) block)
      (hheaded : node.chainstate.Headed)
      (hhashes : (node.chainstate.active_hashes = self.chainstate.active_hashes ∧
          self.chainstate.active_hashes.getLast? = some (block.block_hash env.hash256)) ∨
        (node.chainstate.active_hashes = self.chainstate.active_hashes ++ [block.block_hash env.hash256] ∧
          block.block_hash env.hash256 ∉ self.chainstate.active_hashes)) :
      Delivered self block data pos world (node.on_accepted block data pos world)

theorem finish_delivered {self node : LiveNodeInterface} {block : Block} {pos : DiskBlockPos}
    {accepted : Bool} {undo : Option BlockUndo} (data : List UInt8) (world : World) (hcarried : Carried self node)
    (hblocks : node.block_files.blocks = self.block_files.blocks.insert (pos.file, pos.pos) block)
    (hheaded : node.chainstate.Headed)
    (hadvance : ChainstateManager.Advance self.chainstate.active_hashes (block.block_hash env.hash256)
      (.ok (accepted, undo)) node.chainstate.active_hashes) :
    (node.finish block data pos world accepted).chainstate.Headed ∧
      Delivered env self block data pos world (node.finish block data pos world accepted) := by
  have haccepted : (node.on_accepted block data pos world).chainstate.Headed := by
    obtain ⟨hindex, hchain, hbest, _⟩ := node.on_accepted_frame block data pos world
    exact hheaded.congr hindex hchain hbest
  generalize hresult : (Except.ok (accepted, undo) :
    Except (Failure BlockValidationState) (Bool × Option BlockUndo)) = result at hadvance
  generalize hhashes : node.chainstate.active_hashes = hashes at hadvance
  cases hadvance with
  | stays hnot =>
    cases accepted with
    | true => exact absurd hresult.symm (hnot undo)
    | false => exact ⟨hheaded, .quiet hcarried hblocks hhashes⟩
  | repeated _ htip =>
    cases hresult
    exact ⟨haccepted, .accepted hcarried hblocks hheaded (.inl ⟨hhashes, htip⟩)⟩
  | grows _ hnew =>
    cases hresult
    exact ⟨haccepted, .accepted hcarried hblocks hheaded (.inr ⟨hhashes, hnew⟩)⟩

theorem Handled.delivered {self after : LiveNodeInterface} {block : Block} {data : List UInt8} {pos : DiskBlockPos}
    {world : World} (hhandled : Handled env self block data pos world after) (hheaded : self.chainstate.Headed)
    (hclimbs : (self.received env block pos).chainstate.Climbs env block world.now)
    (hundo : world.undo_pos.isSome = true) :
    after.chainstate.Headed ∧ Delivered env self block data pos world after := by
  obtain ⟨hreceived, hreceived_hashes⟩ :=
    hheaded.set_file_pos (block.block_hash env.hash256) pos.file pos.pos
  obtain ⟨hprocessed, hadvance⟩ := ChainstateManager.Headed.process_new_block env hreceived
    (self.received env block pos).block_files.reader hclimbs
  have hcarried : ∀ chainstate, Carried self { self.received env block pos with chainstate } :=
    fun _ => ⟨rfl, rfl, rfl, rfl, rfl, rfl⟩
  have hfold : (self.received env block pos).chainstate.process_new_block env block world.now
      (self.received env block pos).block_files.reader = self.answer env block pos world := rfl
  have hwritten : (self.received env block pos).chainstate =
      self.chainstate.set_file_pos (block.block_hash env.hash256) pos.file pos.pos := rfl
  rw [← hwritten] at hprocessed hadvance
  rw [hfold] at hprocessed hadvance
  rw [hwritten, hreceived_hashes] at hadvance
  cases hhandled with
  | @failed e chainstate hanswer =>
    rw [hanswer] at hprocessed hadvance
    refine ⟨hprocessed, .quiet (hcarried chainstate) rfl ?_⟩
    dsimp only at hadvance ⊢
    generalize chainstate.active_hashes = hashes at hadvance ⊢
    cases hadvance with
    | stays _ => rfl
  | not_undone _ hnone =>
    rw [hnone] at hundo
    cases hundo
  | @known accepted chainstate hanswer =>
    rw [hanswer] at hprocessed hadvance
    exact finish_delivered env data world (hcarried chainstate) rfl hprocessed hadvance
  | @connected accepted undo undo_pos chainstate hanswer _ =>
    rw [hanswer] at hprocessed hadvance
    obtain ⟨hset, hset_hashes⟩ := hprocessed.set_undo_pos (block.block_hash env.hash256) undo_pos
    have hwritten_undo : ChainstateManager.Advance self.chainstate.active_hashes (block.block_hash env.hash256)
        (.ok (accepted, some undo)) (chainstate.set_undo_pos (block.block_hash env.hash256) undo_pos).active_hashes :=
      hset_hashes ▸ hadvance
    exact finish_delivered env data world ⟨rfl, rfl, rfl, rfl, rfl, rfl⟩ rfl hset hwritten_undo

end qubitcoin.qubitcoind.LiveNodeInterface

namespace qubitcoin.qubitcoind

open Startup

variable (env : Env)

/-- A node that has started over a new data directory: its chain is the genesis block, and
    its pool and its transaction index are empty. -/
structure Fresh (settings : Settings) (world : World) (node : LiveNodeInterface) : Prop where
  headed : node.chainstate.Headed
  active_hashes : node.chainstate.active_hashes =
    [(settings.params.create_genesis_block env.hash256).block_hash env.hash256]
  coins : ∃ start, FromGenesis env settings.params ⟨∅, 0⟩ start ∧
    node.chainstate.coins_tip = (start.coins_tip.flush_to world.order world.coins_written).2
  mempool : node.mempool = .new
  tx_index_db : node.tx_index_db = ∅
  pending_tx_index : node.pending_tx_index = []
  indexer_manager : node.indexer_manager = settings.indexer_manager

/-- What a start over a new data directory does: the coins of the genesis block are flushed, the block
    is written, and the index after it. -/
theorem startup_empty_ok {settings : Settings} {world : World} {node : LiveNodeInterface}
    (hstart : startup env settings .empty world = .ok node) :
    ∃ start written block_files, FromGenesis env settings.params ⟨∅, 0⟩ start ∧
      write_genesis_block env (flush_coins start world) .empty (settings.params.create_genesis_block env.hash256) world =
        (written, block_files) ∧
      node =
        { chainstate := { written with assume_valid := settings.assumed_valid_block.or written.assume_valid }
          mempool := .new
          block_files
          block_index_db :=
            if world.index_written then write_block_indices ∅ (written.dirty_block_indices world.listed) else ∅
          tx_index_db := ∅
          blocks_since_flush := 0
          dbcache_limit := settings.dbcache_limit
          pending_tx_index := []
          indexer_manager := settings.indexer_manager } := by
  unfold startup at hstart
  obtain ⟨⟨chainstate, block_index_db, block_files⟩, hload, hnode⟩ := bind_eq_ok_iff.mp hstart
  have hnothing : (ChainstateManager.new settings.params Disk.empty.coins_db).load_block_index
      (load_all Disk.empty.block_index_db) = ChainstateManager.new settings.params ⟨∅, 0⟩ := rfl
  unfold load_chainstate at hload
  dsimp only at hload
  rw [hnothing, if_pos (by rfl)] at hload
  unfold start_at_genesis at hload
  obtain ⟨start, hgenesis, hload⟩ := bind_eq_ok_iff.mp hload
  cases hload
  exact ⟨start, _, _, hgenesis, rfl, (Except.ok.inj hnode).symm⟩

theorem startup_empty {settings : Settings} {world : World} {node : LiveNodeInterface}
    (hstart : startup env settings .empty world = .ok node) : Fresh env settings world node := by
  obtain ⟨start, chainstate, block_files, hgenesis, hwrite, rfl⟩ := startup_empty_ok env hstart
  obtain ⟨hheaded, hhashes⟩ := FromGenesis.headed env hgenesis
  have hflushed : (flush_coins start world).Headed := hheaded.congr rfl rfl rfl
  have hflushed_hashes : (flush_coins start world).active_hashes = start.active_hashes :=
    ChainstateManager.active_hashes_congr rfl rfl
  have hwritten : chainstate.Headed ∧ chainstate.active_hashes = start.active_hashes ∧
      chainstate.coins_tip = (flush_coins start world).coins_tip := by
    obtain rfl : (write_genesis_block env (flush_coins start world) .empty
        (settings.params.create_genesis_block env.hash256) world).1 = chainstate := congrArg Prod.fst hwrite
    dsimp only [write_genesis_block]
    split
    · exact ⟨hflushed, hflushed_hashes, rfl⟩
    · next pos _ =>
      have hset := hflushed.set_file_pos ((settings.params.create_genesis_block env.hash256).block_hash env.hash256)
        pos.file pos.pos
      refine ⟨hset.1, hset.2.trans hflushed_hashes, ?_⟩
      unfold ChainstateManager.set_file_pos
      split <;> rfl
  obtain ⟨hchain, hchain_hashes, hcoins⟩ := hwritten
  exact ⟨hchain.congr rfl rfl rfl, hchain_hashes.trans hhashes, ⟨start, hgenesis, hcoins⟩, rfl, rfl, rfl, rfl⟩

/-- A world in which every write succeeds and every run of an indexer too. Blocks and undo
    data go to one place of the first files. -/
def regtest_world (pos : UInt32) : World where
  now := regtest_now
  block_pos := some ⟨0, pos⟩
  undo_pos := some pos
  order := regtest_manager.coins_tip.cache.entries
  coins_written := true
  listed := [0]
  index_written := true
  tx_index_written := true
  runtime _ _ _ := true

def regtest_settings (indexer_manager : Option IndexerManager) : Settings :=
  ⟨.regtest, none, 1024 * 1024 * 1024, indexer_manager⟩

theorem World.with_order (world : World) (order : List (Σ _ : OutPoint, CoinsCacheEntry)) : { world with order }.order = order := rfl

def regtest_node (indexer_manager : Option IndexerManager) : LiveNodeInterface :=
  match startup .op_true (regtest_settings indexer_manager) .empty (regtest_world 0) with
  | .ok node => node
  | .error _ => .of_manager regtest_manager

theorem startup_regtest (indexer_manager : Option IndexerManager) :
    startup .op_true (regtest_settings indexer_manager) .empty (regtest_world 0) = .ok (regtest_node indexer_manager) := by
  have hload : (load_chainstate .op_true .regtest .empty (regtest_world 0)).toOption.isSome = true := by decide +kernel
  unfold regtest_node
  split
  · next node hnode => exact hnode
  · next e he =>
    unfold startup at he
    cases hresult : load_chainstate .op_true (regtest_settings indexer_manager).params .empty (regtest_world 0) with
    | ok loaded =>
      rw [hresult] at he
      cases he
    | error e =>
      have hsome : (load_chainstate .op_true (regtest_settings indexer_manager).params .empty
        (regtest_world 0)).toOption.isSome = true := hload
      rw [hresult] at hsome
      cases hsome

theorem startup_chainstate_eq (env : Env) {settings other : Settings} {disk : Disk} {world : World}
    {node next : LiveNodeInterface} (hparams : settings.params = other.params)
    (hassumed : settings.assumed_valid_block = other.assumed_valid_block)
    (hstart : startup env settings disk world = .ok node) (hnext : startup env other disk world = .ok next) :
    node.chainstate = next.chainstate := by
  unfold startup at hstart hnext
  obtain ⟨⟨chainstate, block_index_db, block_files⟩, hload, hnode⟩ := bind_eq_ok_iff.mp hstart
  obtain ⟨loaded, hreload, hnext⟩ := bind_eq_ok_iff.mp hnext
  rw [hparams, hreload] at hload
  cases hload
  cases hnode
  cases hnext
  dsimp only
  rw [hassumed]

theorem regtest_node_chainstate (indexer_manager : Option IndexerManager) :
    (regtest_node indexer_manager).chainstate = (regtest_node none).chainstate := by
  have hparams : (regtest_settings indexer_manager).params = (regtest_settings none).params := rfl
  have hassumed : (regtest_settings indexer_manager).assumed_valid_block = (regtest_settings none).assumed_valid_block := rfl
  exact startup_chainstate_eq .op_true hparams hassumed (startup_regtest indexer_manager) (startup_regtest none)

theorem first_block_connected :
    (Block.decode Env.op_true.hash256).run first_block.encode = .ok (first_block, []) ∧
      ((((regtest_node none).received .op_true first_block ⟨0, 300⟩).chainstate.at_connect .op_true first_block
        regtest_now).all fun reached => (reached.2.connect_new_block .op_true first_block reached.1).1.toOption.isSome &&
          decide (((regtest_node none).received .op_true first_block ⟨0, 300⟩).chainstate.chain.tip = some 0 ∧
            parent_of reached.2.arena reached.1 = some 0 ∧
            (reached.2.entry 0).chain_work < (reached.2.entry reached.1).chain_work)) = true := by
  decide +kernel

theorem decode_first_block : (Block.decode Env.op_true.hash256).run first_block.encode = .ok (first_block, []) :=
  first_block_connected.1

theorem first_block_extends (indexer_manager : Option IndexerManager) :
    ((regtest_node indexer_manager).received .op_true first_block ⟨0, 300⟩).chainstate.ExtendsTip .op_true first_block
      regtest_now := by
  obtain ⟨_, hchild⟩ := first_block_connected
  have hsame : ((regtest_node indexer_manager).received .op_true first_block ⟨0, 300⟩).chainstate =
      ((regtest_node none).received .op_true first_block ⟨0, 300⟩).chainstate := by
    unfold LiveNodeInterface.received LiveNodeInterface.write_block
    dsimp only
    rw [regtest_node_chainstate]
  rw [hsame]
  intro idx mid hreach
  rw [hreach] at hchild
  obtain ⟨hok, hparent⟩ := Bool.and_eq_true_iff.mp hchild
  split
  · exact ⟨0, of_decide_eq_true hparent⟩
  · next heq => rw [heq] at hok; cases hok
  · next heq => rw [heq] at hok; cases hok

end qubitcoin.qubitcoind
