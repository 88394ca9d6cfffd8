import Qubitcoin.Chainstate.Persist
import Qubitcoin.Daemon.Pointers
import Qubitcoin.Storage.BlockFiles

/-! The start of a node over databases that an earlier run has written. -/

open qubitcoin primitives transaction block coins chain chainparams chainstate block_index_db

namespace qubitcoin.chainstate

open ChainstateManager

theorem Stored.congr {manager after : ChainstateManager} {db : BlockIndexDB} (hstored : Stored manager db)
    (hindex : after.block_index = manager.block_index) (hchain : after.chain = manager.chain)
    (hbest : after.best_valid_tip = manager.best_valid_tip) (hdirty : manager.dirty_indices ⊆ after.dirty_indices) :
    Stored after db := by
  have harena : after.arena = manager.arena := congrArg BlockMap.indices hindex
  have htracked : Tracked manager after :=
    ⟨fun hat => ⟨_, harena ▸ hat, rfl, rfl⟩, hdirty, fun idx _ => by rw [harena]⟩
  refine ⟨hstored.toSound.congr hindex hchain hbest, hstored.persisted.tracked htracked, ?_⟩
  unfold ChainstateManager.entry
  rw [hindex]
  exact hstored.work

theorem Stored.flush {manager : ChainstateManager} {db : BlockIndexDB} (hstored : Stored manager db) {listed : List Nat}
    (hlisted : listed.toFinset = manager.dirty_indices) :
    Stored manager.clear_dirty (write_block_indices db (manager.dirty_block_indices listed)) :=
  ⟨Sound.clear_dirty hstored.toSound, hstored.persisted.flush hstored.toIndexed hlisted, hstored.work⟩

end qubitcoin.chainstate

namespace qubitcoin.qubitcoind

open Startup

namespace Disk

/-- The manager that is loaded, before it is compared with the coins. -/
def loaded (self : Disk) (params : ChainParams) : ChainstateManager :=
  (ChainstateManager.new params self.coins_db).load_block_index (load_all self.block_index_db)

def started (self : Disk) (settings : Settings) (chainstate : ChainstateManager) : LiveNodeInterface where
  chainstate := { chainstate with assume_valid := settings.assumed_valid_block.or chainstate.assume_valid }
  mempool := .new
  block_files := self.block_files
  block_index_db := self.block_index_db
  tx_index_db := self.tx_index_db
  blocks_since_flush := 0
  dbcache_limit := settings.dbcache_limit
  pending_tx_index := []
  indexer_manager := settings.indexer_manager

end Disk

theorem startup_marked (env : Env) {settings : Settings} {disk : Disk} {world : World}
    (hmark : disk.coins_db.best_block ≠ 0) :
    startup env settings disk world = (recover (disk.loaded settings.params) disk world).map (disk.started settings) := by
  have hnull : ¬ disk.coins_db.best_block.is_null = true := by
    unfold Uint256.is_null
    rw [beq_iff_eq]
    exact hmark
  unfold startup load_chainstate
  dsimp only
  rw [if_neg hnull]
  unfold Disk.loaded
  cases recover ((ChainstateManager.new settings.params disk.coins_db).load_block_index (load_all disk.block_index_db))
    disk world with
  | error e => rfl
  | ok chainstate => rfl

theorem tip_hash_eq (chainstate : ChainstateManager) : tip_hash chainstate = chainstate.active_hashes.getLast?.getD 0 := by
  unfold tip_hash ChainstateManager.active_hashes
  rw [List.getLast?_map]
  rfl

theorem recover_at_tip {chainstate : ChainstateManager} {disk : Disk} (world : World)
    (htip : chainstate.active_hashes.getLast? = some disk.coins_db.best_block) :
    recover chainstate disk world = .ok chainstate := by
  unfold recover
  rw [tip_hash_eq, htip]
  exact if_pos rfl

theorem flush_to_best_block (view : CoinsViewCache) (order : List (Σ _ : OutPoint, CoinsCacheEntry)) (written : Bool) :
    (view.flush_to order written).2.best_block = view.best_block := by
  cases written <;> rfl

section

variable {env : Env} {settings : Settings} {world : World} {node : LiveNodeInterface}

theorem Fresh.marked (hfresh : Fresh env settings world node) : node.chainstate.Marked := by
  obtain ⟨start, hstart, hcoins⟩ := hfresh.coins
  have hbest : start.coins_tip.best_block =
      (settings.params.create_genesis_block env.hash256).block_hash env.hash256 := by
    obtain ⟨coins_tip, _, rfl⟩ := load_genesis_block_new env hstart
    rfl
  unfold ChainstateManager.Marked
  rw [hfresh.active_hashes, hcoins, flush_to_best_block, hbest]
  exact List.getLast?_singleton

theorem startup_empty_stored (hstart : startup env settings .empty world = .ok node)
    (hlisted : world.listed.toFinset = node.chainstate.dirty_indices) :
    node.chainstate.arena.length = 1 ∧ Stored node.chainstate node.block_index_db ∧
      (node.block_index_db = ∅ ∨ Stored node.chainstate.clear_dirty node.block_index_db) := by
  obtain ⟨start, chainstate, block_files, hgenesis, hwrite, rfl⟩ := startup_empty_ok env hstart
  have hflushed : Stored (flush_coins start world) ∅ :=
    (FromGenesis.stored env hgenesis).congr rfl rfl rfl (Finset.Subset.refl _)
  have hsingle : (flush_coins start world).arena.length = 1 := by
    obtain ⟨coins_tip, _, rfl⟩ := load_genesis_block_new env hgenesis
    rfl
  have hwritten : chainstate.arena.length = 1 ∧ Stored chainstate ∅ := by
    obtain rfl : (write_genesis_block env (flush_coins start world) .empty
        (settings.params.create_genesis_block env.hash256) world).1 = chainstate := congrArg Prod.fst hwrite
    unfold write_genesis_block
    split
    · exact ⟨hsingle, hflushed⟩
    · next pos _ =>
      refine ⟨?_, @Stored.step env (flush_coins start world, ∅) _ (.event (.file_pos _ pos.file pos.pos)) hflushed rfl⟩
      unfold ChainstateManager.set_file_pos
      split
      · exact (List.length_modify ..).trans hsingle
      · exact hsingle
  refine ⟨hwritten.1, ?_⟩
  dsimp only at hlisted ⊢
  split
  · have hstored := hwritten.2.flush hlisted
    exact ⟨hstored.congr rfl rfl rfl (Finset.empty_subset _), .inr (hstored.congr rfl rfl rfl (Finset.Subset.refl _))⟩
  · exact ⟨hwritten.2.congr rfl rfl rfl (Finset.Subset.refl _), .inl rfl⟩

end

end qubitcoin.qubitcoind

/-! The transaction index along runs of delivered blocks, flushes, and shutdowns with a
    restart. -/

open qubitcoin primitives serialize transaction block coins chain validation_state chainstate
  qubitcoin.validation block_index_db tx_index_db chainparams transition

namespace qubitcoin.qubitcoind

/-- The index leads from each transaction of a block to the block on disk and to its place in
    the block. -/
def Answers (db : TxIndexDB) (files : BlockFiles) (block : Block) : Prop :=
  ∀ tx ∈ block.vtx, ∃ file data_pos tx_idx, read_tx_pos db tx.txid = some (file, data_pos, tx_idx) ∧
    files.read_block file data_pos = some block ∧ block.vtx[tx_idx.toNat]? = some tx

/-- The index answers for the blocks of a chain above genesis. -/
def TxIndexed (env : Env) (hashes : List BlockHash) (stored : StoredBlocks) (db : TxIndexDB) (files : BlockFiles) : Prop :=
  ∀ hash ∈ hashes.tail, ∃ block, stored hash = some block ∧ block.block_hash env.hash256 = hash ∧
    Answers db files block

/-- Transactions with one id are one. -/
def OneEach (block : Block) : Prop := ∀ tx ∈ block.vtx, ∀ other ∈ block.vtx, tx.txid = other.txid → tx = other

theorem OneEach.of_nodup {block : Block} (hnodup : (block.vtx.map Transaction.txid).Nodup) : OneEach block :=
  fun _ htx _ hother heq => List.inj_on_of_nodup_map hnodup htx hother heq

theorem Answers.oneEach {db : TxIndexDB} {files : BlockFiles} {block : Block} (hanswers : Answers db files block) :
    OneEach block := by
  intro tx htx other hother heq
  obtain ⟨_, _, tx_idx, hread, _, hat⟩ := hanswers tx htx
  obtain ⟨_, _, _, hother_read, _, hother_at⟩ := hanswers other hother
  rw [← heq, hread] at hother_read
  cases hother_read
  exact Option.some.inj (hat.symm.trans hother_at)

theorem read_block_positions (db : TxIndexDB) {block : Block} (pos : DiskBlockPos) (hcount : block.vtx.length < 2 ^ 32)
    (hone : OneEach block) {tx : Transaction} (htx : tx ∈ block.vtx) :
    ∃ tx_idx, read_tx_pos (write_tx_positions db (LiveNodeInterface.block_positions block pos)) tx.txid =
        some (pos.file, pos.pos, tx_idx) ∧ block.vtx[tx_idx.toNat]? = some tx := by
  rw [read_tx_pos_write]
  cases hfind : (LiveNodeInterface.block_positions block pos).reverse.find? fun entry => entry.1 == tx.txid with
  | none =>
    obtain ⟨i, hat⟩ := List.mem_iff_getElem?.mp htx
    have hmem : (tx.txid, pos.file, pos.pos, UInt32.ofNat i) ∈ (LiveNodeInterface.block_positions block pos).reverse :=
      List.mem_reverse.mpr (List.mem_map.mpr ⟨(tx, i), List.mem_zipIdx_iff_getElem?.mpr hat, rfl⟩)
    have hne := List.find?_eq_none.mp hfind _ hmem
    simp at hne
  | some entry =>
    obtain ⟨⟨other, i⟩, hpair, rfl⟩ := List.mem_map.mp (List.mem_reverse.mp (List.mem_of_find?_eq_some hfind))
    have hat : block.vtx[i]? = some other := List.mem_zipIdx_iff_getElem?.mp hpair
    have hid : other.txid = tx.txid := by simpa using List.find?_some hfind
    obtain rfl := hone other (List.mem_of_getElem? hat) tx htx hid
    have hlt := (List.getElem?_eq_some_iff.mp hat).1
    refine ⟨UInt32.ofNat i, rfl, ?_⟩
    rw [UInt32.toNat_ofNat_of_lt' (by exact hlt.trans hcount)]
    exact hat

theorem read_block_positions_other (db : TxIndexDB) {block : Block} (pos : DiskBlockPos) {txid : Txid}
    (hother : ∀ tx ∈ block.vtx, tx.txid ≠ txid) :
    read_tx_pos (write_tx_positions db (LiveNodeInterface.block_positions block pos)) txid = read_tx_pos db txid := by
  have hfind : ((LiveNodeInterface.block_positions block pos).reverse.find? fun entry => entry.1 == txid) = none := by
    rw [List.find?_eq_none]
    intro entry hmem
    obtain ⟨⟨tx, i⟩, hpair, rfl⟩ := List.mem_map.mp (List.mem_reverse.mp hmem)
    simpa using hother tx (List.fst_mem_of_mem_zipIdx hpair)
  rw [read_tx_pos_write, hfind]
  rfl

theorem Answers.insert_block {db : TxIndexDB} {files : BlockFiles} {block : Block} (hanswers : Answers db files block)
    {pos : DiskBlockPos} (hfree : files.blocks.lookup (pos.file, pos.pos) = none) (other : Block) :
    Answers db (files.insert_block pos other) block := by
  intro tx htx
  obtain ⟨file, data_pos, tx_idx, hread, hblock, hat⟩ := hanswers tx htx
  exact ⟨file, data_pos, tx_idx, hread, BlockFiles.read_block_insert hfree other hblock, hat⟩

/-- The index after a block, by the answer of the chainstate: the positions of an accepted
    block are added. -/
def index_after (db : TxIndexDB) (block : Block) (pos : DiskBlockPos) :
    Except (Failure BlockValidationState) (Bool × Option BlockUndo) → TxIndexDB
  | .ok (true, _) => write_tx_positions db (LiveNodeInterface.block_positions block pos)
  | _ => db

/-- What the file store and the other blocks of the chain owe a delivered block. Its position
    is free. If it is the tip or gets to its connection, and is of the chain, it has the body
    that was connected; and no other block of the chain has a transaction with the id of one
    of its own. -/
structure Apart (env : Env) (hashes : List BlockHash) (stored : StoredBlocks) (files : BlockFiles) (block : Block)
    (pos : DiskBlockPos) (connects : Bool) : Prop where
  file : 0 ≤ pos.file
  free : files.blocks.lookup (pos.file, pos.pos) = none
  again : hashes.getLast? = some (block.block_hash env.hash256) ∨ connects = true →
    block.block_hash env.hash256 ∈ hashes.tail → stored (block.block_hash env.hash256) = some block
  txids : hashes.getLast? = some (block.block_hash env.hash256) ∨ connects = true →
    ∀ hash ∈ hashes.tail, hash ≠ block.block_hash env.hash256 → ∀ other, stored hash = some other →
      ∀ tx ∈ block.vtx, ∀ old ∈ other.vtx, tx.txid ≠ old.txid

section

variable {env : Env} {before after : List BlockHash} {stored : StoredBlocks} {db : TxIndexDB} {files : BlockFiles}
  {block : Block} {pos : DiskBlockPos} {connects : Bool}
  {result : Except (Failure BlockValidationState) (Bool × Option BlockUndo)}

theorem Apart.keeps (hapart : Apart env before stored files block pos connects)
    (hconnects : ∀ accepted undo, result = .ok (accepted, some undo) → connects = true) {hash : BlockHash}
    (hmem : hash ∈ before.tail) : store_block env stored block result hash = stored hash := by
  unfold store_block
  split
  · next accepted undo =>
    by_cases heq : hash = block.block_hash env.hash256
    · subst heq
      rw [Function.update_self, hapart.again (.inr (hconnects accepted undo rfl)) hmem]
    · exact Function.update_of_ne heq ..
  · rfl

theorem TxIndexed.write_positions (hindexed : TxIndexed env before stored db files)
    (hapart : Apart env before stored files block pos connects) (hcount : block.vtx.length < 2 ^ 32)
    (hconnects : ∀ accepted undo, result = .ok (accepted, some undo) → connects = true)
    (hcounts : before.getLast? = some (block.block_hash env.hash256) ∨ connects = true)
    (hafter : ∀ hash ∈ after.tail, hash = block.block_hash env.hash256 ∨ hash ∈ before.tail)
    (hblock : block.block_hash env.hash256 ∈ after.tail →
      store_block env stored block result (block.block_hash env.hash256) = some block ∧ OneEach block) :
    TxIndexed env after (store_block env stored block result)
      (write_tx_positions db (LiveNodeInterface.block_positions block pos)) (files.insert_block pos block) := by
  intro hash hmem
  by_cases heq : hash = block.block_hash env.hash256
  · subst heq
    obtain ⟨hstored, hone⟩ := hblock hmem
    refine ⟨block, hstored, rfl, fun tx htx => ?_⟩
    obtain ⟨tx_idx, hread, hat⟩ := read_block_positions db pos hcount hone htx
    exact ⟨pos.file, pos.pos, tx_idx, hread, BlockFiles.read_insert_block hapart.file block, hat⟩
  · have hbefore := (hafter hash hmem).resolve_left heq
    obtain ⟨old, hstored, hhash, hanswers⟩ := hindexed hash hbefore
    refine ⟨old, (hapart.keeps hconnects hbefore).trans hstored, hhash, fun tx htx => ?_⟩
    obtain ⟨file, data_pos, tx_idx, hread, hread_block, hat⟩ := hanswers.insert_block hapart.free block tx htx
    refine ⟨file, data_pos, tx_idx, ?_, hread_block, hat⟩
    rw [read_block_positions_other db pos fun other hother =>
      hapart.txids hcounts hash hbefore heq old hstored other hother tx htx]
    exact hread

theorem TxIndexed.answered (hindexed : TxIndexed env before stored db files)
    (hapart : Apart env before stored files block pos connects) (hnonempty : before ≠ [])
    (hcount : block.vtx.length < 2 ^ 32)
    (hadvance : ChainstateManager.Advance before (block.block_hash env.hash256) result after)
    (hchecked : ∀ accepted undo, result = .ok (accepted, some undo) → OneEach block ∧ connects = true) :
    TxIndexed env after (store_block env stored block result) (index_after db block pos result)
      (files.insert_block pos block) := by
  have hconnects : ∀ accepted undo, result = .ok (accepted, some undo) → connects = true :=
    fun accepted undo hresult => (hchecked accepted undo hresult).2
  cases hadvance with
  | stays hresult =>
    have hsame : index_after db block pos result = db := by
      unfold index_after
      split
      · next undo => exact absurd rfl (hresult undo)
      · rfl
    rw [hsame]
    intro hash hmem
    obtain ⟨old, hstored, hhash, hanswers⟩ := hindexed hash hmem
    exact ⟨old, (hapart.keeps hconnects hmem).trans hstored, hhash, hanswers.insert_block hapart.free block⟩
  | repeated undo htip =>
    refine hindexed.write_positions hapart hcount hconnects (.inl htip) (fun _ hmem => .inr hmem) fun hmem => ?_
    obtain ⟨old, hstored, _, hanswers⟩ := hindexed _ hmem
    have hagain := hapart.again (.inl htip) hmem
    rw [hstored] at hagain
    cases hagain
    exact ⟨(hapart.keeps hconnects hmem).trans hstored, hanswers.oneEach⟩
  | grows undo _ =>
    obtain ⟨hone, hreaches⟩ := hchecked true undo rfl
    refine hindexed.write_positions hapart hcount hconnects (.inr hreaches) (fun hash hmem => ?_) fun _ =>
      ⟨Function.update_self .., hone⟩
    rw [List.tail_append_of_ne_nil hnonempty] at hmem
    obtain hold | hnew := List.mem_append.mp hmem
    · exact .inr hold
    · exact .inl (List.mem_singleton.mp hnew)

end

/-- The databases accept the batches of a flush, and the dirty set is listed as it is. -/
structure World.Flushes (world : World) (chainstate : ChainstateManager) : Prop where
  listed : world.listed.toFinset = chainstate.dirty_indices
  index_written : world.index_written = true
  tx_index_written : world.tx_index_written = true

namespace LiveNodeInterface

/-- The index once the positions that are pending are written. -/
def tx_index (self : LiveNodeInterface) : TxIndexDB := write_tx_positions self.tx_index_db self.pending_tx_index

end LiveNodeInterface

/-- What holds of the node and the blocks that were connected, along a run. -/
structure Covered (env : Env) (node : LiveNodeInterface) (stored : StoredBlocks) : Prop where
  headed : node.chainstate.Headed
  marked : node.chainstate.Marked
  persisted : Stored node.chainstate node.block_index_db
  indexed : TxIndexed env node.chainstate.active_hashes stored node.tx_index node.block_files

/-- The conditions on a delivered block: it is set apart, its undo data is written if it gets
    to its connection, it does not reorganize the chain, and a flush that it causes goes
    through. -/
structure Orderly (env : Env) (node : LiveNodeInterface) (stored : StoredBlocks) (block : Block) (pos : DiskBlockPos)
    (world : World) : Prop where
  apart : Apart env node.chainstate.active_hashes stored node.block_files block pos
    ((node.received env block pos).chainstate.at_connect env block world.now).isSome
  undo : ((node.received env block pos).chainstate.at_connect env block world.now).isSome = true →
    world.undo_pos.isSome = true
  climbs : (node.received env block pos).chainstate.Climbs env block world.now
  flushes : world.Flushes (node.settled env block pos world)

section

variable {env : Env} {node : LiveNodeInterface} {stored : StoredBlocks} {block : Block} {pos : DiskBlockPos}
  {world : World}

theorem Covered.flush (hcovered : Covered env node stored) (hflushes : world.Flushes node.chainstate) :
    Covered env (node.flush world) stored := by
  refine ⟨hcovered.headed.congr rfl rfl rfl, hcovered.marked.congr rfl (flush_to_best_block ..), ?_, ?_⟩
  · have hdb : (node.flush world).block_index_db =
        write_block_indices node.block_index_db (node.chainstate.dirty_block_indices world.listed) := by
      unfold LiveNodeInterface.flush
      exact if_pos hflushes.index_written
    rw [hdb]
    exact (hcovered.persisted.flush hflushes.listed).congr rfl rfl rfl (Finset.Subset.refl _)
  · have hwritten : (node.flush world).tx_index = node.tx_index := by
      unfold LiveNodeInterface.tx_index LiveNodeInterface.flush
      exact if_pos hflushes.tx_index_written
    rw [hwritten]
    exact hcovered.indexed

theorem Covered.finish (hheaded : node.chainstate.Headed) (hmarked : node.chainstate.Marked)
    (hpersisted : Stored node.chainstate node.block_index_db) {accepted : Bool} {undo : Option BlockUndo}
    (hindexed : TxIndexed env node.chainstate.active_hashes stored
      (index_after node.tx_index block pos (.ok (accepted, undo))) node.block_files)
    (hflushes : world.Flushes node.chainstate) (data : List UInt8) :
    Covered env (node.finish block data pos world accepted) stored := by
  cases accepted with
  | false => exact ⟨hheaded, hmarked, hpersisted, hindexed⟩
  | true =>
    have hcounted : Covered env (node.counted block data pos world) stored := by
      refine ⟨hheaded, hmarked, hpersisted, ?_⟩
      have hwritten : (node.counted block data pos world).tx_index =
          write_tx_positions node.tx_index (LiveNodeInterface.block_positions block pos) := List.foldl_append ..
      rw [hwritten]
      exact hindexed
    change Covered env (node.on_accepted block data pos world) stored
    rw [LiveNodeInterface.on_accepted_eq]
    split
    · exact hcounted.flush hflushes
    · exact hcounted

theorem oneEach_of_connected {manager : ChainstateManager} {block_reader : BlockReader} {now : Int} {accepted : Bool}
    {undo : BlockUndo}
    (hresult : (manager.process_new_block env block now block_reader).1 = .ok (accepted, some undo)) :
    OneEach block ∧ (manager.at_connect env block now).isSome = true := by
  have hprocessed := manager.process_new_block_processed env block now block_reader
  rw [hresult] at hprocessed
  generalize hlast : (Except.ok (accepted, some undo) :
    Except (Failure BlockValidationState) (Bool × Option BlockUndo)) = result at hprocessed
  generalize (manager.process_new_block env block now block_reader).2 = after at hprocessed
  cases hprocessed with
  | header _ => cases hlast
  | known _ _ => cases hlast
  | body _ _ _ => cases hlast
  | context _ _ _ _ => cases hlast
  | connect _ _ _ _ _ => cases hlast
  | activate hheader hknown hcheck hcontext _ _ =>
    refine ⟨.of_nodup (check_block_ok env hcheck).txids_nodup, ?_⟩
    rw [(ChainstateManager.at_connect_eq_some env).mpr ⟨_, hheader, hknown, hcheck, hcontext, rfl⟩]
    rfl

theorem Covered.handled (hcovered : Covered env node stored) (horderly : Orderly env node stored block pos world)
    (hcount : block.vtx.length < 2 ^ 32) {data : List UInt8} {after : LiveNodeInterface}
    (hhandled : LiveNodeInterface.Handled env node block data pos world after) :
    Covered env after (store_block env stored block (node.answer env block pos world).1) := by
  obtain ⟨hreceived, hreceived_hashes⟩ := hcovered.headed.set_file_pos (block.block_hash env.hash256) pos.file pos.pos
  have hwritten : (node.received env block pos).chainstate =
      node.chainstate.set_file_pos (block.block_hash env.hash256) pos.file pos.pos := rfl
  rw [← hwritten] at hreceived hreceived_hashes
  have hfold : (node.received env block pos).chainstate.process_new_block env block world.now
      (node.received env block pos).block_files.reader = node.answer env block pos world := rfl
  have hmarked_received : (node.received env block pos).chainstate.Marked :=
    hcovered.marked.congr hreceived_hashes (congrArg CoinsViewCache.best_block (ChainstateManager.set_file_pos_coins_tip ..))
  obtain ⟨hheaded, hadvance⟩ := ChainstateManager.Headed.process_new_block env hreceived
    (node.received env block pos).block_files.reader horderly.climbs
  have hmarked := hmarked_received.process_new_block env hreceived
    (node.received env block pos).block_files.reader horderly.climbs
  have hstored : Stored (node.answer env block pos world).2 node.block_index_db := by
    have hfile := @Stored.step env (node.chainstate, node.block_index_db) _
      (.event (.file_pos (block.block_hash env.hash256) pos.file pos.pos)) hcovered.persisted rfl
    exact @Stored.step env ((node.received env block pos).chainstate, node.block_index_db) _
      (.event (.block block world.now (node.received env block pos).block_files.reader)) hfile rfl
  obtain ⟨_, hnonempty, _⟩ := hcovered.headed.length_active_hashes
  have hchecked : ∀ accepted undo, (node.answer env block pos world).1 = .ok (accepted, some undo) → OneEach block ∧
      ((node.received env block pos).chainstate.at_connect env block world.now).isSome = true :=
    fun accepted undo hresult => oneEach_of_connected (hfold ▸ hresult)
  rw [hfold] at hheaded hadvance hmarked
  rw [hreceived_hashes] at hadvance
  have hindexed := hcovered.indexed.answered horderly.apart (List.ne_nil_of_length_pos hnonempty) hcount hadvance hchecked
  have hflushes := horderly.flushes
  unfold LiveNodeInterface.settled at hflushes
  cases hhandled with
  | failed hanswer =>
    rw [hanswer] at hheaded hmarked hstored hindexed ⊢
    exact ⟨hheaded, hmarked, hstored, hindexed⟩
  | @not_undone accepted undo _ hanswer hnone =>
    have hundo := horderly.undo (hchecked accepted undo (congrArg Prod.fst hanswer)).2
    rw [hnone] at hundo
    cases hundo
  | known hanswer =>
    rw [hanswer] at hheaded hmarked hstored hindexed hflushes ⊢
    exact Covered.finish hheaded hmarked hstored hindexed hflushes data
  | connected hanswer hundo =>
    rw [hanswer] at hheaded hmarked hstored hindexed hflushes ⊢
    rw [hundo] at hflushes
    obtain ⟨hset, hset_hashes⟩ := hheaded.set_undo_pos (block.block_hash env.hash256) _
    refine Covered.finish hset ?_ ?_ (hset_hashes ▸ hindexed) hflushes data
    · exact hmarked.congr hset_hashes (congrArg CoinsViewCache.best_block (LiveNodeInterface.set_undo_pos_coins_tip ..))
    · exact @Stored.step env (_, node.block_index_db) _ (.event (.undo_pos (block.block_hash env.hash256) _)) hstored rfl

theorem Covered.process_block (hcovered : Covered env node stored) (data : List UInt8)
    (horderly : ∀ block rest pos, (Block.decode env.hash256).run data = .ok (block, rest) → world.block_pos = some pos →
      Orderly env node stored block pos world) :
    Covered env (node.process_block env data world).2 (node.record env stored data world) := by
  obtain ⟨hsame, hrecord⟩ | ⟨block, rest, pos, hread, hpos, hhandled, hrecord⟩ :=
    node.process_block_recorded env stored data world
  · rw [hsame, hrecord]
    exact hcovered
  · have hsendable := ((Block.exact_decode env.hash256).run_eq_ok.mp hread).1
    have hcount : block.vtx.length < 2 ^ 32 := lt_of_le_of_lt hsendable.count (by decide)
    rw [hrecord]
    exact hcovered.handled (horderly block rest pos hread hpos) hcount hhandled

end

/-- The conditions on a graceful shutdown: no position is pending, the databases accept what
    it writes, and the tip is the only fully valid block of its work. The null hash stands for
    no block, and no block has it. -/
structure Stops (node : LiveNodeInterface) (down : World) : Prop where
  pending : node.pending_tx_index = []
  listed : down.listed.toFinset = node.chainstate.dirty_indices
  coins_written : down.coins_written = true
  index_written : down.index_written = true
  sole : node.chainstate.Sole
  named : ∀ idx < node.chainstate.arena.length, (node.chainstate.entry idx).block_hash ≠ 0

theorem Covered.restart {env : Env} {settings : Settings} {node next : LiveNodeInterface} {stored : StoredBlocks}
    {down up : World} (hcovered : Covered env node stored) (hstops : Stops node down)
    (hstart : startup env settings (node.shutdown down) up = .ok next) : Covered env next stored := by
  have hdb : (node.shutdown down).block_index_db =
      write_block_indices node.block_index_db (node.chainstate.dirty_block_indices down.listed) := by
    unfold LiveNodeInterface.shutdown
    exact if_pos hstops.index_written
  have hmark : (node.shutdown down).coins_db.best_block = node.chainstate.coins_tip.best_block := by
    unfold LiveNodeInterface.shutdown Startup.flush_coins
    rw [hstops.coins_written]
    rfl
  have hsaved : Stored node.chainstate.clear_dirty (node.shutdown down).block_index_db := by
    rw [hdb]
    exact hcovered.persisted.flush hstops.listed
  obtain ⟨hrebuilt, hcoins⟩ := hsaved.toSound.rebuilt hsaved.work
    (fun hat => ChainstateManager.entry_eq hat ▸ hstops.named _ (List.getElem?_eq_some_iff.mp hat).1)
    (hsaved.persisted.load_all_perm hsaved.toIndexed rfl) settings.params (node.shutdown down).coins_db
  have hhashes : ((node.shutdown down).loaded settings.params).active_hashes = node.chainstate.active_hashes :=
    hrebuilt.active_hashes hstops.sole
  have htip : ((node.shutdown down).loaded settings.params).active_hashes.getLast? =
      some (node.shutdown down).coins_db.best_block := by
    rw [hhashes, hmark]
    exact hcovered.marked
  have hne : (node.shutdown down).coins_db.best_block ≠ 0 := by
    obtain ⟨tip, hpath, _⟩ := hcovered.headed.tip
    have hlast := ChainstateManager.active_hashes_getLast? (ChainstateManager.tip_of_path hpath)
    rw [hcovered.marked, ← hmark] at hlast
    rw [Option.some.inj hlast]
    exact hstops.named tip hpath.1
  rw [startup_marked env hne, recover_at_tip up htip] at hstart
  cases hstart
  refine ⟨hrebuilt.toHeaded.congr rfl rfl rfl, ?_, ?_, ?_⟩
  · have hbest : ((node.shutdown down).loaded settings.params).coins_tip.best_block =
        (node.shutdown down).coins_db.best_block := congrArg CoinsViewCache.best_block hcoins
    unfold ChainstateManager.Marked
    exact htip.trans (congrArg some hbest.symm)
  · exact (hrebuilt.stored hsaved rfl).congr rfl rfl rfl (Finset.Subset.refl _)
  · have hindex : ((node.shutdown down).started settings ((node.shutdown down).loaded settings.params)).tx_index =
        node.tx_index := by
      unfold LiveNodeInterface.tx_index
      rw [hstops.pending]
      rfl
    have hchain : ((node.shutdown down).started settings ((node.shutdown down).loaded settings.params)).chainstate.active_hashes =
        node.chainstate.active_hashes := hhashes
    rw [hindex, hchain]
    exact hcovered.indexed

/-- What happens to a node: the bytes of a block are delivered, or it is shut down and
    started again. -/
inductive Turn where
  | block (data : List UInt8) (world : World)
  | restart (down up : World)

variable (env : Env)

/-- A turn that meets the conditions, with the blocks that were connected. -/
def TurnStep (settings : Settings) (state : LiveNodeInterface × StoredBlocks) :
    Turn → LiveNodeInterface × StoredBlocks → Prop
  | .block data world, next =>
    (∀ block rest pos, (Block.decode env.hash256).run data = .ok (block, rest) → world.block_pos = some pos →
      Orderly env state.1 state.2 block pos world) ∧
    next = ((state.1.process_block env data world).2, state.1.record env state.2 data world)
  | .restart down up, next =>
    Stops state.1 down ∧ startup env settings (state.1.shutdown down) up = .ok next.1 ∧ next.2 = state.2

theorem Fresh.covered {settings : Settings} {world : World} {node : LiveNodeInterface}
    (hfresh : Fresh env settings world node) (hstored : Stored node.chainstate node.block_index_db)
    (stored : StoredBlocks) : Covered env node stored := by
  refine ⟨hfresh.headed, hfresh.marked, hstored, ?_⟩
  intro hash hmem
  rw [hfresh.active_hashes] at hmem
  cases hmem

/-- In every run from a new data directory whose turns meet the conditions, once no position
    is pending (after a flush, or a shutdown) the transaction index leads from every
    transaction of every block of the active chain above genesis to that block on disk and to
    the place of the transaction in it. -/
theorem tx_index_covers_chain {settings : Settings} {world : World} {node after : LiveNodeInterface}
    {stored : StoredBlocks} {turns : List Turn} (hstart : startup env settings .empty world = .ok node)
    (hlisted : world.listed.toFinset = node.chainstate.dirty_indices)
    (hrun : Trace (TurnStep env settings) (node, fun _ => none) turns (after, stored))
    (hwritten : after.pending_tx_index = []) :
    TxIndexed env after.chainstate.active_hashes stored after.tx_index_db after.block_files ∧
      ∀ down, TxIndexed env after.chainstate.active_hashes stored (after.shutdown down).tx_index_db
        (after.shutdown down).block_files := by
  have hcovered : Covered env after stored := by
    refine hrun.invariant (fun state => Covered env state.1 state.2) ?_
      ((startup_empty env hstart).covered env (startup_empty_stored hstart hlisted).2.1 _)
    rintro ⟨node, stored⟩ turn ⟨next, next_stored⟩ hcovered hstep
    cases turn with
    | block data world =>
      obtain ⟨horderly, heq⟩ := hstep
      cases heq
      exact Covered.process_block hcovered data horderly
    | restart down up =>
      obtain ⟨hstops, hagain, heq⟩ := hstep
      cases heq
      exact Covered.restart hcovered hstops hagain
  have hindexed := hcovered.indexed
  unfold LiveNodeInterface.tx_index at hindexed
  rw [hwritten] at hindexed
  exact ⟨hindexed, fun _ => hindexed⟩

/-- A node without room for coins in its cache, so that it flushes after every block. -/
def eager_node : LiveNodeInterface := { regtest_node none with dbcache_limit := 0 }

def eager_settings : Settings := { regtest_settings none with dbcache_limit := 0 }

theorem startup_eager : startup .op_true eager_settings .empty (regtest_world 0) = .ok eager_node := by
  have hstart := startup_regtest none
  unfold startup at hstart ⊢
  obtain ⟨loaded, hload, hnode⟩ := bind_eq_ok_iff.mp hstart
  refine bind_eq_ok_iff.mpr ⟨loaded, hload, ?_⟩
  unfold eager_node
  rw [← Except.ok.inj hnode]
  rfl

/-- The world of a call with the first block, which leaves two entries dirty. -/
def eager_world : World := { regtest_world 300 with listed := [1, 0] }

def eager_first : LiveNodeInterface := (eager_node.process_block .op_true first_block.encode eager_world).2

theorem eager_first_facts :
    (regtest_world 0).listed.toFinset = eager_node.chainstate.dirty_indices ∧
    eager_node.block_files.blocks.lookup (0, 300) = none ∧
    eager_world.listed.toFinset = (eager_node.settled .op_true first_block ⟨0, 300⟩ eager_world).dirty_indices ∧
    eager_first.pending_tx_index = [] ∧
    eager_first.chainstate.active_hashes.tail = [first_block.block_hash Env.op_true.hash256] := by
  decide +kernel

theorem first_block_orderly :
    Orderly .op_true eager_node (fun _ => none) first_block ⟨0, 300⟩ eager_world := by
  obtain ⟨_, hfree, hlisted, _⟩ := eager_first_facts
  have hfresh := startup_empty .op_true startup_eager
  have htail : eager_node.chainstate.active_hashes.tail = [] := by rw [hfresh.active_hashes]; rfl
  have hsame : (eager_node.received .op_true first_block ⟨0, 300⟩).chainstate =
      ((regtest_node none).received .op_true first_block ⟨0, 300⟩).chainstate := by
    unfold LiveNodeInterface.received LiveNodeInterface.write_block eager_node
    dsimp only
  have hclimbs := (first_block_extends none).climbs
  rw [← hsame] at hclimbs
  refine ⟨⟨by decide, hfree, ?_, ?_⟩, fun _ => rfl, hclimbs, ⟨hlisted, rfl, rfl⟩⟩
  · intro _ hmem
    rw [htail] at hmem
    cases hmem
  · intro _ hash hmem
    rw [htail] at hmem
    cases hmem

theorem tx_index_covers_chain_first_block :
    eager_first.chainstate.active_hashes.tail = [first_block.block_hash Env.op_true.hash256] ∧
      TxIndexed .op_true eager_first.chainstate.active_hashes
        (eager_node.record .op_true (fun _ => none) first_block.encode eager_world) eager_first.tx_index_db
        eager_first.block_files := by
  obtain ⟨hlisted, _, _, hwritten, htail⟩ := eager_first_facts
  have hstep : TurnStep .op_true eager_settings (eager_node, fun _ => none) (.block first_block.encode eager_world)
      (eager_first, eager_node.record .op_true (fun _ => none) first_block.encode eager_world) := by
    refine ⟨fun block rest pos hread hpos => ?_, rfl⟩
    rw [decode_first_block] at hread
    cases hread
    cases hpos
    exact first_block_orderly
  exact ⟨htail, (tx_index_covers_chain .op_true startup_eager hlisted (.cons hstep (.nil _)) hwritten).1⟩

/-- The node of the network that has the first block, and has not flushed. -/
def unflushed_node : LiveNodeInterface :=
  ((regtest_node none).process_block .op_true first_block.encode (regtest_world 300)).2

/-- A graceful shutdown does not write the positions that are pending. -/
theorem tx_index_covers_chain_fails :
    ¬ TxIndexed .op_true unflushed_node.chainstate.active_hashes
      ((regtest_node none).record .op_true (fun _ => none) first_block.encode (regtest_world 300))
      (unflushed_node.shutdown (regtest_world 300)).tx_index_db (unflushed_node.shutdown (regtest_world 300)).block_files := by
  have hfacts : first_block.block_hash Env.op_true.hash256 ∈ unflushed_node.chainstate.active_hashes.tail ∧
      (((regtest_node none).record .op_true (fun _ => none) first_block.encode (regtest_world 300))
        (first_block.block_hash Env.op_true.hash256)).all (fun block => !block.vtx.isEmpty && block.vtx.all fun tx =>
          (read_tx_pos (unflushed_node.shutdown (regtest_world 300)).tx_index_db tx.txid).isNone) = true := by
    decide +kernel
  obtain ⟨hmem, hunread⟩ := hfacts
  intro hindexed
  obtain ⟨block, hstored, _, hanswers⟩ := hindexed _ hmem
  rw [hstored, Option.all_some, Bool.and_eq_true_iff, Bool.not_eq_true'] at hunread
  obtain ⟨hnonempty, hnone⟩ := hunread
  obtain ⟨tx, htx⟩ := List.exists_mem_of_ne_nil _ (List.isEmpty_eq_false_iff.mp hnonempty)
  obtain ⟨_, _, _, hread, _⟩ := hanswers tx htx
  have hmissing := List.all_eq_true.mp hnone tx htx
  rw [hread] at hmissing
  cases hmissing

end qubitcoin.qubitcoind
