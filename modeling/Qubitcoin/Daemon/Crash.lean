import Qubitcoin.Chainstate.Linear
import Qubitcoin.Daemon.Pooled
import Qubitcoin.Daemon.Recovery
import Qubitcoin.Storage.Wrapper

/-! A start after a run that was cut between two of its writes. -/

open qubitcoin primitives transaction block coins chain validation_state chainstate
  qubitcoin.validation block_index_db chainparams parentTree transition chainstate.ChainstateManager

namespace qubitcoin.chainstate.ChainstateManager

variable {self : ChainstateManager}

theorem Headed.path_of_prefix (hheaded : self.Headed) {hashes : List BlockHash} (hstarts : hashes <+: self.active_hashes)
    {idx : Nat} (hlt : idx < self.arena.length) (hlast : hashes.getLast? = some (self.entry idx).block_hash) :
    AncestorPath self.arena idx (self.chain.chain.take hashes.length) ∧
      (self.chain.chain.take hashes.length).map (fun idx => (self.entry idx).block_hash) = hashes := by
  obtain ⟨tip, hpath, _⟩ := hheaded.tip
  have hmap : (self.chain.chain.take hashes.length).map (fun idx => (self.entry idx).block_hash) = hashes := by
    rw [List.map_take]
    exact (List.prefix_iff_eq_take.mp hstarts).symm
  refine ⟨?_, hmap⟩
  have hpos : 0 < hashes.length := by
    cases hashes with
    | nil => cases hlast
    | cons _ _ => exact Nat.succ_pos _
  obtain ⟨other, hat, hhash⟩ : ∃ other, self.chain.chain[hashes.length - 1]? = some other ∧
      (self.entry other).block_hash = (self.entry idx).block_hash := by
    rw [← hmap, List.getLast?_map] at hlast
    obtain ⟨other, hother, hhash⟩ := Option.map_eq_some_iff.mp hlast
    have hlength : (self.chain.chain.take hashes.length).length = hashes.length := by
      rw [← List.length_map (f := fun idx => (self.entry idx).block_hash), hmap]
    rw [List.getLast?_eq_getElem?, hlength, List.getElem?_take_of_lt (by omega)] at hother
    exact ⟨other, hother, hhash⟩
  have hother := hheaded.mem_path_lt hpath (List.mem_of_getElem? hat)
  obtain rfl := hheaded.hash_injective (getElem?_entry hother) (getElem?_entry hlt) hhash
  have htake := hpath.2.take hheaded.tree.leveled hat
  rw [Nat.sub_add_cancel hpos] at htake
  exact ⟨hlt, htake⟩

theorem Within.path_hashes {flushed : ChainstateManager} (hwithin : Within flushed self) (hflushed : flushed.Indexed)
    (hheaded : self.Headed) {hashes : List BlockHash} (hstarts : hashes <+: self.active_hashes) {idx : Nat}
    {path : List Nat} (hpath : AncestorPath flushed.arena idx path)
    (hlast : hashes.getLast? = some (flushed.entry idx).block_hash) :
    path.length = hashes.length ∧ path.map (fun idx => (flushed.entry idx).block_hash) = hashes := by
  have hlater := hwithin.path hpath
  rw [← hwithin.block_hash hpath.1] at hlast
  obtain ⟨hchain, hmap⟩ := hheaded.path_of_prefix hstarts hlater.1 hlast
  obtain rfl := hlater.2.unique hchain.2
  have hagree : (self.chain.chain.take hashes.length).map (fun idx => (flushed.entry idx).block_hash) =
      (self.chain.chain.take hashes.length).map fun idx => (self.entry idx).block_hash :=
    List.map_congr_left fun i hmem => (hwithin.block_hash (hflushed.mem_path_lt hpath hmem)).symm
  have hsame := hagree.trans hmap
  have hlength := congrArg List.length hsame
  rw [List.length_map] at hlength
  exact ⟨hlength, hsame⟩

end qubitcoin.chainstate.ChainstateManager

namespace qubitcoin.qubitcoind

open Startup

/-- The index that was written last, as the manager it was written from: its entries are
    still in the index, and its chain was at most that long. -/
structure Indexing (chainstate : ChainstateManager) (db : BlockIndexDB) (length : Nat) (flushed : ChainstateManager) :
    Prop where
  stored : Stored flushed db
  clean : flushed.dirty_indices = ∅
  linear : flushed.Linear
  within : Within flushed chainstate
  length : flushed.chain.chain.length ≤ length

/-- What is on disk of a run: the coins of the beginning of the active chain up to their best
    block, and an index that was written no later, if any. -/
def Left (chainstate : ChainstateManager) (stored : StoredBlocks) (coins_db : CoinsViewDB) (db : BlockIndexDB) : Prop :=
  ∃ hashes, hashes <+: chainstate.active_hashes ∧ hashes.getLast? = some coins_db.best_block ∧
    replay stored hashes = some coins_db.get_coin ∧
    (db = ∅ ∨ ∃ flushed, Indexing chainstate db hashes.length flushed)

/-- The coins are the replay of the active chain, and their best block is its tip. -/
def Recovered (chainstate : ChainstateManager) (stored : StoredBlocks) : Prop :=
  replay stored chainstate.active_hashes = some chainstate.coins_tip.visible ∧
    chainstate.active_hashes.getLast? = some chainstate.coins_tip.best_block

theorem Left.mono {chainstate after : ChainstateManager} {stored later : StoredBlocks} {coins_db : CoinsViewDB}
    {db : BlockIndexDB} (hleft : Left chainstate stored coins_db db) (hwithin : Within chainstate after)
    (hstarts : chainstate.active_hashes <+: after.active_hashes)
    (hstored : ∀ hash ∈ chainstate.active_hashes, later hash = stored hash) : Left after later coins_db db := by
  obtain ⟨hashes, hbefore, hlast, hcoins, hindex⟩ := hleft
  refine ⟨hashes, hbefore.trans hstarts, hlast, ?_, ?_⟩
  · rw [replay_congr fun hash hmem => hstored hash (hbefore.subset hmem)]
    exact hcoins
  · refine hindex.imp_right fun ⟨flushed, hindexing⟩ => ⟨flushed, ?_⟩
    exact ⟨hindexing.stored, hindexing.clean, hindexing.linear, hindexing.within.trans hwithin, hindexing.length⟩

section

variable {env : Env} {chainstate : ChainstateManager} {stored : StoredBlocks} {disk : Disk} {settings : Settings} {up : World}

theorem heights_down_of_le {low high : Int} (hle : high ≤ low) : ChainstateManager.heights_down low high = [] := by
  unfold ChainstateManager.heights_down
  rw [show (high - low).toNat = 0 by omega]
  rfl

theorem rewind_up {loaded : ChainstateManager} (block_files : BlockFiles) {idx : Nat} (world : World)
    (hheight : loaded.height ≤ (loaded.entry idx).height) :
    rewind loaded block_files idx world = .ok (flush_coins (loaded.reset_active_chain_to idx) world) := by
  unfold rewind
  rw [heights_down_of_le hheight]
  rfl

theorem path_reset {loaded : ChainstateManager} (hsound : loaded.Sound) {idx : Nat} (hlt : idx < loaded.arena.length) :
    AncestorPath loaded.arena idx (loaded.reset_active_chain_to idx).chain.chain := by
  obtain ⟨tip, hpath⟩ := hsound.chain
  have hheight : (loaded.entry idx).height = height_of loaded.arena idx := hsound.tree.height_eq (getElem?_entry hlt)
  unfold ChainstateManager.reset_active_chain_to
  dsimp only
  rw [hheight]
  exact hsound.tree.set_tip_with_path hlt (hsound.tree.settled_resize hpath _)

theorem Indexing.rebuilt {length : Nat} {flushed : ChainstateManager}
    (hindexing : Indexing chainstate disk.block_index_db length flushed)
    (hnamed : ∀ idx < chainstate.arena.length, (chainstate.entry idx).block_hash ≠ 0) (params : ChainParams) :
    Rebuilt flushed (disk.loaded params) ∧ (disk.loaded params).coins_tip = .new disk.coins_db := by
  refine hindexing.stored.toSound.rebuilt hindexing.stored.work (fun {idx index} hat => ?_)
    (hindexing.stored.persisted.load_all_perm hindexing.stored.toIndexed hindexing.clean) params disk.coins_db
  have hlt := (List.getElem?_eq_some_iff.mp hat).1
  rw [← entry_eq hat, ← hindexing.within.block_hash hlt]
  exact hnamed idx (hlt.trans_le hindexing.within.length)

theorem Indexing.height_le {length : Nat} {flushed loaded : ChainstateManager}
    (hindexing : Indexing chainstate disk.block_index_db length flushed) (hrebuilt : Rebuilt flushed loaded) :
    loaded.height ≤ length - 1 := by
  obtain ⟨found, hpath, hvalid, _⟩ := hrebuilt.heaviest
  obtain ⟨i, htwin⟩ := hrebuilt.origin hpath.1
  have hmem := hindexing.linear i htwin.lt.1 (htwin.valid_at.trans hvalid)
  obtain ⟨tip, hchain⟩ := hindexing.stored.chain
  obtain ⟨h, hat⟩ := List.mem_iff_getElem?.mp hmem
  have hheight := hchain.2.height_getElem? hindexing.stored.tree.leveled hat
  have htwin_height := htwin.height
  have hlt := (List.getElem?_eq_some_iff.mp hat).1
  have hlength := hpath.2.1
  have hle := hindexing.length
  unfold ChainstateManager.height Chain.height
  omega

theorem loaded_of_empty (hempty : disk.block_index_db = ∅) (params : ChainParams) :
    disk.loaded params = ChainstateManager.new params disk.coins_db := by
  unfold Disk.loaded
  rw [hempty]
  rfl

theorem Left.record_iff (hleft : Left chainstate stored disk.coins_db disk.block_index_db)
    (hnamed : ∀ idx < chainstate.arena.length, (chainstate.entry idx).block_hash ≠ 0) (params : ChainParams)
    (hash : BlockHash) :
    (∃ record ∈ load_all disk.block_index_db, record.block_hash = hash) ↔
      ∃ idx, (disk.loaded params).lookup_block_index hash = some idx := by
  obtain ⟨hashes, _, _, _, hempty | ⟨flushed, hindexing⟩⟩ := hleft
  · rw [loaded_of_empty hempty, hempty]
    constructor
    · rintro ⟨_, hmem, _⟩
      cases hmem
    · rintro ⟨_, hfound⟩
      cases hfound
  · obtain ⟨hrebuilt, _⟩ := hindexing.rebuilt hnamed params
    have hperm := hindexing.stored.persisted.load_all_perm hindexing.stored.toIndexed hindexing.clean
    constructor
    · rintro ⟨record, hmem, rfl⟩
      obtain ⟨index, hindex, rfl⟩ := List.mem_map.mp (hperm.subset hmem)
      obtain ⟨i, hat⟩ := List.mem_iff_getElem?.mp hindex
      obtain ⟨j, htwin⟩ := hrebuilt.cover (List.getElem?_eq_some_iff.mp hat).1
      have hhash := htwin.block_hash
      rw [entry_eq hat] at hhash
      exact ⟨j, hrebuilt.by_hash.mpr ⟨_, getElem?_entry htwin.lt.2, hhash.symm⟩⟩
    · rintro ⟨j, hfound⟩
      obtain ⟨index, hat, rfl⟩ := hrebuilt.by_hash.mp hfound
      obtain ⟨i, htwin⟩ := hrebuilt.origin (List.getElem?_eq_some_iff.mp hat).1
      have hhash := htwin.block_hash
      rw [entry_eq hat] at hhash
      refine ⟨to_record (flushed.entry i), ?_, hhash⟩
      exact hperm.symm.subset (List.mem_map_of_mem (List.mem_of_getElem? (getElem?_entry htwin.lt.1)))

theorem Left.loaded (hleft : Left chainstate stored disk.coins_db disk.block_index_db)
    (hnamed : ∀ idx < chainstate.arena.length, (chainstate.entry idx).block_hash ≠ 0) (params : ChainParams) :
    (disk.loaded params).coins_tip = .new disk.coins_db ∧
      ∀ hash, (disk.loaded params).active_hashes.getLast? = some hash →
        ∃ idx, (disk.loaded params).lookup_block_index hash = some idx := by
  obtain ⟨_, _, _, _, hempty | ⟨flushed, hindexing⟩⟩ := hleft
  · rw [loaded_of_empty hempty]
    refine ⟨rfl, fun hash hlast => ?_⟩
    cases hlast
  · obtain ⟨hrebuilt, hview⟩ := hindexing.rebuilt hnamed params
    refine ⟨hview, fun hash hlast => ?_⟩
    obtain ⟨tip, hpath, _⟩ := hrebuilt.tip
    rw [ChainstateManager.active_hashes_getLast? (tip_of_path hpath)] at hlast
    exact ⟨tip, hrebuilt.by_hash.mpr ⟨_, getElem?_entry hpath.1, Option.some.inj hlast⟩⟩

theorem recover_off_tip {loaded : ChainstateManager} (hmark : disk.coins_db.best_block ≠ 0)
    (htip : loaded.active_hashes.getLast? ≠ some disk.coins_db.best_block) :
    recover loaded disk up = match loaded.lookup_block_index disk.coins_db.best_block with
      | some utxo_idx => rewind loaded disk.block_files utxo_idx up
      | none => .ok loaded := by
  have hne : disk.coins_db.best_block ≠ tip_hash loaded := by
    rw [tip_hash_eq]
    cases hlast : loaded.active_hashes.getLast? with
    | none => exact hmark
    | some hash => exact fun heq => htip (hlast.trans (congrArg some heq.symm))
  unfold recover
  exact if_neg hne

theorem Left.best_block_ne_zero (hleft : Left chainstate stored disk.coins_db disk.block_index_db)
    (hheaded : chainstate.Headed)
    (hnamed : ∀ idx < chainstate.arena.length, (chainstate.entry idx).block_hash ≠ 0) :
    disk.coins_db.best_block ≠ 0 := by
  obtain ⟨hashes, hstarts, hlast, _⟩ := hleft
  obtain ⟨tip, hpath, _⟩ := hheaded.tip
  obtain ⟨i, hmem, hhash⟩ := List.mem_map.mp (hstarts.subset (List.mem_of_getLast? hlast))
  rw [← hhash]
  exact hnamed i (hheaded.mem_path_lt hpath hmem)

theorem Left.recovers (hleft : Left chainstate stored disk.coins_db disk.block_index_db) (hheaded : chainstate.Headed)
    (hnamed : ∀ idx < chainstate.arena.length, (chainstate.entry idx).block_hash ≠ 0) (horder : up.order.Perm [])
    {j : Nat} (hfound : (disk.loaded settings.params).lookup_block_index disk.coins_db.best_block = some j) :
    ∃ restarted, startup env settings disk up = .ok restarted ∧ Recovered restarted.chainstate stored := by
  have hmark := hleft.best_block_ne_zero hheaded hnamed
  have hrecord := (hleft.record_iff hnamed settings.params _).mpr ⟨j, hfound⟩
  obtain ⟨hashes, hstarts, hlast, hcoins, hempty | ⟨flushed, hindexing⟩⟩ := hleft
  · obtain ⟨_, hmem, _⟩ := hrecord
    rw [hempty] at hmem
    cases hmem
  obtain ⟨hrebuilt, hview⟩ := hindexing.rebuilt hnamed settings.params
  have hheight_le := hindexing.height_le hrebuilt
  rw [startup_marked env hmark]
  generalize disk.loaded settings.params = loaded at hfound hrebuilt hview hheight_le ⊢
  obtain ⟨index, hat, hhash⟩ := hrebuilt.by_hash.mp hfound
  rw [← entry_eq hat] at hhash
  have hlt := (List.getElem?_eq_some_iff.mp hat).1
  obtain ⟨t, htwin⟩ := hrebuilt.origin hlt
  -- The path of the best block shows the blocks whose coins were written.
  have hwritten := hindexing.stored.toIndexed.build_chain_path htwin.lt.1
  rw [← hhash, ← htwin.block_hash] at hlast
  obtain ⟨hlength, hmap⟩ := hindexing.within.path_hashes hindexing.stored.toIndexed hheaded hstarts hwritten hlast
  have hshows : ∀ {path : List Nat}, AncestorPath loaded.arena j path →
      path.map (fun idx => (loaded.entry idx).block_hash) = hashes := fun hpath =>
    (path_hashes_eq hrebuilt.source.toIndexed hrebuilt.toIndexed hrebuilt.cover Twin.matched htwin hwritten hpath).symm.trans
      hmap
  rw [htwin.block_hash, hhash] at hlast
  by_cases htip : loaded.active_hashes.getLast? = some disk.coins_db.best_block
  · obtain ⟨found, hchain, _⟩ := hrebuilt.tip
    have hfound_hash := ChainstateManager.active_hashes_getLast? (tip_of_path hchain)
    rw [htip] at hfound_hash
    obtain rfl : found = j := hrebuilt.hash_injective (getElem?_entry hchain.1) (getElem?_entry hlt)
      ((Option.some.inj hfound_hash).symm.trans hhash.symm)
    refine ⟨_, by rw [recover_at_tip up htip]; rfl, ?_, ?_⟩
    · have hhashes : loaded.active_hashes = hashes := hshows hchain
      change replay stored loaded.active_hashes = some loaded.coins_tip.visible
      rw [hhashes, hcoins, hview, CoinsViewCache.new_visible]
    · change loaded.active_hashes.getLast? = some loaded.coins_tip.best_block
      rw [htip, hview]
      rfl
  · have hpath := path_reset hrebuilt.toSound hlt
    have hhashes : (loaded.reset_active_chain_to j).active_hashes = hashes := hshows hpath
    have hheight : loaded.height ≤ (loaded.entry j).height := by
      have hentry : (loaded.entry j).height = height_of loaded.arena j :=
        hrebuilt.tree.height_eq (getElem?_entry hlt)
      have htwin_height := htwin.height
      have hsize := hwritten.2.1
      omega
    have hcache : (loaded.reset_active_chain_to j).coins_tip.cache.entries = [] := by
      unfold ChainstateManager.reset_active_chain_to
      rw [hview]
      rfl
    have hcoherent : (loaded.reset_active_chain_to j).coins_tip.Coherent := by
      rw [reset_active_chain_to_coherent, hview]
      exact CoinsViewCache.new_coherent _
    obtain ⟨hvisible, _⟩ := flush_to_visible hcoherent (hcache ▸ horder) up.coins_written
    rw [reset_active_chain_to_visible, hview, CoinsViewCache.new_visible] at hvisible
    refine ⟨_, by rw [recover_off_tip hmark htip, hfound]; dsimp only; rw [rewind_up disk.block_files up hheight]; rfl, ?_, ?_⟩
    · change replay stored (loaded.reset_active_chain_to j).active_hashes =
        some ((loaded.reset_active_chain_to j).coins_tip.flush_to up.order up.coins_written).2.visible
      rw [hhashes, hcoins, hvisible]
    · change (loaded.reset_active_chain_to j).active_hashes.getLast? =
        some ((loaded.reset_active_chain_to j).coins_tip.flush_to up.order up.coins_written).2.best_block
      rw [hhashes, hlast, flush_to_best_block]
      exact congrArg some hhash.symm

theorem Left.recovers_iff (hleft : Left chainstate stored disk.coins_db disk.block_index_db) (hheaded : chainstate.Headed)
    (hnamed : ∀ idx < chainstate.arena.length, (chainstate.entry idx).block_hash ≠ 0) (horder : up.order.Perm []) :
    (∃ restarted, startup env settings disk up = .ok restarted ∧ Recovered restarted.chainstate stored) ↔
      ∃ record ∈ load_all disk.block_index_db, record.block_hash = disk.coins_db.best_block := by
  rw [hleft.record_iff hnamed settings.params]
  constructor
  · rintro ⟨restarted, hstart, _, hlast⟩
    by_contra hunknown
    have hnone : (disk.loaded settings.params).lookup_block_index disk.coins_db.best_block = none :=
      Option.eq_none_iff_forall_ne_some.mpr fun idx hidx => hunknown ⟨idx, hidx⟩
    obtain ⟨hview, htips⟩ := hleft.loaded hnamed settings.params
    have htip : (disk.loaded settings.params).active_hashes.getLast? ≠ some disk.coins_db.best_block :=
      fun htip => hunknown (htips _ htip)
    rw [startup_marked env (hleft.best_block_ne_zero hheaded hnamed),
      recover_off_tip (hleft.best_block_ne_zero hheaded hnamed) htip, hnone] at hstart
    cases hstart
    have hlast : (disk.loaded settings.params).active_hashes.getLast? =
        some (disk.loaded settings.params).coins_tip.best_block := hlast
    rw [hview] at hlast
    exact htip hlast
  · rintro ⟨j, hfound⟩
    exact hleft.recovers hheaded hnamed horder hfound

end

/-- What the world owes a flush: the cache and the dirty set are listed as they are, and the
    coin database accepts the batch. -/
structure World.Commits (world : World) (chainstate : ChainstateManager) : Prop where
  order : world.order.Perm chainstate.coins_tip.cache.entries
  listed : world.listed.toFinset = chainstate.dirty_indices
  coins_written : world.coins_written = true

/-- What holds along a run: the coins follow the chain, there are no side branches, and the
    databases can be started from. -/
structure Durable (chainstate : ChainstateManager) (db : BlockIndexDB) (stored : StoredBlocks) : Prop where
  replayed : chainstate.Replayed stored
  marked : chainstate.Marked
  linear : chainstate.Linear
  persisted : Stored chainstate db
  left : Left chainstate stored chainstate.coins_tip.base db

/-- The conditions on a delivered block: if it gets to its connection it is new to the coins
    and extends the tip, and a flush that it causes is accepted by the coin database. -/
structure Extending (env : Env) (node : LiveNodeInterface) (block : Block) (pos : DiskBlockPos) (world : World) :
    Prop where
  unshadowed : ((node.received env block pos).chainstate.at_connect env block world.now).isSome = true →
    Unshadowed node.chainstate.coins_tip block.vtx
  extends_tip : (node.received env block pos).chainstate.ExtendsTip env block world.now
  commits : world.Commits (node.settled env block pos world)

section

variable {env : Env} {chainstate after : ChainstateManager} {db : BlockIndexDB} {stored : StoredBlocks}
  {node : LiveNodeInterface} {block : Block} {pos : DiskBlockPos} {world : World}

theorem Durable.updates (hdurable : Durable chainstate db stored) (hupdates : Updates chainstate after)
    (hchain : after.chain = chainstate.chain) (hcoins : after.coins_tip = chainstate.coins_tip)
    (hvalid : ∀ idx, after.valid_at idx = true → chainstate.valid_at idx = true) (hreplayed : after.Replayed stored)
    (hpersisted : Stored after db) : Durable after db stored := by
  have hhashes := hupdates.active_hashes hchain
  refine ⟨hreplayed, hdurable.marked.congr hhashes (congrArg CoinsViewCache.best_block hcoins),
    hdurable.linear.of_updates hupdates hchain hvalid, hpersisted, ?_⟩
  rw [hcoins]
  exact hdurable.left.mono hupdates.within (hhashes ▸ List.prefix_rfl) fun _ _ => rfl

theorem Durable.set_pos (hdurable : Durable chainstate db stored) (idx : Nat) {update : BlockIndex → BlockIndex}
    (hfixed : ∀ index, (update index).fixed = index.fixed) (hstatus : ∀ index, (update index).status = index.status) :
    Durable (chainstate.update_entry idx update) db stored := by
  have hupdates : Updates chainstate (chainstate.update_entry idx update) := .update_entry chainstate idx hfixed
  refine hdurable.updates hupdates rfl rfl (fun i hvalid => ?_) (Replayed.set_pos hdurable.replayed idx hfixed hstatus) ?_
  · unfold ChainstateManager.valid_at BlockIndex.is_valid at hvalid ⊢
    rw [entry_update_entry] at hvalid
    split at hvalid
    · rw [hstatus] at hvalid
      exact hvalid
    · exact hvalid
  · refine ⟨Sound.set_pos hdurable.persisted.toSound idx hfixed hstatus, hdurable.persisted.persisted.tracked hupdates.tracked, ?_⟩
    rw [hupdates.chain_work]
    exact hdurable.persisted.work

theorem Durable.set_file_pos (hdurable : Durable chainstate db stored) (hash : BlockHash) (file : Int32)
    (data_pos : UInt32) : Durable (chainstate.set_file_pos hash file data_pos) db stored := by
  unfold ChainstateManager.set_file_pos
  split
  · next idx _ => exact hdurable.set_pos idx (fun _ => rfl) fun _ => rfl
  · exact hdurable

theorem Durable.set_undo_pos (hdurable : Durable chainstate db stored) (hash : BlockHash) (undo_pos : UInt32) :
    Durable (chainstate.set_undo_pos hash undo_pos) db stored := by
  unfold ChainstateManager.set_undo_pos
  split
  · next idx _ => exact hdurable.set_pos idx (fun _ => rfl) fun _ => rfl
  · exact hdurable

theorem Durable.process_new_block (hdurable : Durable chainstate db stored) {now : Int} (block_reader : BlockReader)
    (hunshadowed : (chainstate.at_connect env block now).isSome = true → Unshadowed chainstate.coins_tip block.vtx)
    (hextends : chainstate.ExtendsTip env block now) :
    Durable (chainstate.process_new_block env block now block_reader).2 db
      (store_block env stored block (chainstate.process_new_block env block now block_reader).1) := by
  obtain ⟨hreplayed, hbase⟩ := hdurable.replayed.process_new_block env block_reader hunshadowed hextends
  have hmarked := hdurable.marked.process_new_block env hdurable.replayed.headed block_reader hextends.climbs
  obtain ⟨hlinear, hwithin⟩ := hdurable.linear.process_new_block env hdurable.replayed.headed block_reader hextends
  have hpersisted := @Stored.step env (chainstate, db) _ (.event (.block block now block_reader)) hdurable.persisted rfl
  refine ⟨hreplayed, hmarked, hlinear, hpersisted, ?_⟩
  rw [hbase]
  have hstep := hdurable.replayed.tip_step env block_reader hunshadowed hextends
  generalize (chainstate.process_new_block env block now block_reader).1 = result at hstep ⊢
  generalize (chainstate.process_new_block env block now block_reader).2 = after at hstep hwithin ⊢
  cases hstep with
  | stays hresult hhashes _ =>
    rw [store_block_of_not_connected env stored block hresult]
    exact hdurable.left.mono hwithin (hhashes ▸ List.prefix_rfl) fun _ _ => rfl
  | appends _ _ _ hnew hhashes _ =>
    refine hdurable.left.mono hwithin (hhashes ▸ List.prefix_append _ _) fun hash hmem => ?_
    refine Function.update_of_ne (fun heq => hnew ?_) ..
    rw [← heq]
    exact hmem

theorem Durable.accept_block_header (hdurable : Durable chainstate db stored) (header : BlockHeader) (now : Int) :
    Durable (chainstate.accept_block_header env header now).2 db stored := by
  obtain ⟨_, hhashes⟩ := hdurable.replayed.headed.accept_block_header env header now
  have hcoins := (chainstate.accept_block_header_frame env header now).2.2.1
  obtain ⟨hlinear, hwithin⟩ := hdurable.linear.accept_block_header env hdurable.replayed.toIndexed header now
  refine ⟨hdurable.replayed.accept_block_header env header now,
    hdurable.marked.congr hhashes (congrArg CoinsViewCache.best_block hcoins), hlinear,
    @Stored.step env (chainstate, db) _ (.event (.header header now)) hdurable.persisted rfl, ?_⟩
  rw [hcoins]
  exact hdurable.left.mono hwithin (hhashes ▸ List.prefix_rfl) fun _ _ => rfl

theorem Durable.reads (hdurable : Durable chainstate db stored) {coins_tip : CoinsViewCache}
    (hreads : chainstate.coins_tip.ReadsTo coins_tip) (hbest : coins_tip.best_block = chainstate.coins_tip.best_block) :
    Durable { chainstate with coins_tip } db stored := by
  refine ⟨hdurable.replayed.with_coins (hreads.coherent hdurable.replayed.coherent) hreads.visible,
    hdurable.marked.congr rfl hbest, hdurable.linear, hdurable.persisted.congr rfl rfl rfl (Finset.Subset.refl _), ?_⟩
  dsimp only
  rw [hreads.base]
  exact hdurable.left.mono ⟨le_rfl, fun _ => rfl, id⟩ List.prefix_rfl fun _ _ => rfl

theorem Durable.flush_left (hdurable : Durable node.chainstate node.block_index_db stored)
    (hcommits : world.Commits node.chainstate) :
    Left (node.flush world).chainstate stored (node.flush world).chainstate.coins_tip.base
      (node.flush world).block_index_db := by
  obtain ⟨_, hbase, _⟩ := hdurable.replayed.coherent.flush_to hcommits.order
  have hcoins : (node.flush world).chainstate.coins_tip.base =
      (node.chainstate.coins_tip.flush_to world.order true).2.base := by
    unfold LiveNodeInterface.flush
    rw [hcommits.coins_written]
    rfl
  refine ⟨node.chainstate.active_hashes, List.prefix_rfl, ?_, ?_, ?_⟩
  · rw [hcoins]
    exact hdurable.marked
  · rw [hcoins, hbase]
    exact hdurable.replayed.coins
  · unfold LiveNodeInterface.flush
    dsimp only
    split
    · refine .inr ⟨node.chainstate.clear_dirty, ?_, rfl, hdurable.linear, ⟨le_rfl, fun _ => rfl, id⟩, ?_⟩
      · exact hdurable.persisted.flush hcommits.listed
      · exact (List.length_map ..).ge
    · obtain ⟨hashes, hstarts, _, _, hindex⟩ := hdurable.left
      refine hindex.imp_right fun ⟨flushed, hindexing⟩ => ⟨flushed, hindexing.stored, hindexing.clean,
        hindexing.linear, hindexing.within.trans ⟨le_rfl, fun _ => rfl, id⟩, hindexing.length.trans hstarts.length_le⟩

theorem Durable.flush (hdurable : Durable node.chainstate node.block_index_db stored)
    (hcommits : world.Commits node.chainstate) (hindex : world.index_written = true) :
    Durable (node.flush world).chainstate (node.flush world).block_index_db stored := by
  obtain ⟨hvisible, hcoherent⟩ :=
    flush_to_visible hdurable.replayed.coherent hcommits.order world.coins_written
  have hflushed := hdurable.replayed.with_coins hcoherent hvisible
  refine ⟨⟨Sound.clear_dirty hflushed.toSound, hflushed.tip, hflushed.coherent, hflushed.coins⟩,
    hdurable.marked.congr rfl (flush_to_best_block ..), hdurable.linear, ?_, hdurable.flush_left hcommits⟩
  have hdb : (node.flush world).block_index_db =
      write_block_indices node.block_index_db (node.chainstate.dirty_block_indices world.listed) := by
    unfold LiveNodeInterface.flush
    exact if_pos hindex
  rw [hdb]
  exact (hdurable.persisted.flush hcommits.listed).congr rfl rfl rfl (Finset.Subset.refl _)

theorem Durable.settled (hdurable : Durable node.chainstate node.block_index_db stored)
    (hextending : Extending env node block pos world) :
    Durable (node.settled env block pos world) node.block_index_db
      (store_block env stored block (node.answer env block pos world).1) := by
  have hreceived : Durable (node.received env block pos).chainstate node.block_index_db stored :=
    hdurable.set_file_pos (block.block_hash env.hash256) pos.file pos.pos
  have hcoins : (node.received env block pos).chainstate.coins_tip = node.chainstate.coins_tip :=
    set_file_pos_coins_tip ..
  have hanswer := hreceived.process_new_block (node.received env block pos).block_files.reader
    (fun hreach => hcoins ▸ hextending.unshadowed hreach) hextending.extends_tip
  have hfold : (node.received env block pos).chainstate.process_new_block env block world.now
      (node.received env block pos).block_files.reader = node.answer env block pos world := rfl
  rw [hfold] at hanswer
  unfold LiveNodeInterface.settled
  split
  · exact hanswer.set_undo_pos (block.block_hash env.hash256) _
  · exact hanswer

theorem finish_cases (node : LiveNodeInterface) (block : Block) (data : List UInt8) (pos : DiskBlockPos) (world : World)
    (accepted : Bool) : ∃ mid : LiveNodeInterface, mid.chainstate = node.chainstate ∧
      mid.block_index_db = node.block_index_db ∧ (node.finish block data pos world accepted = mid ∨
        node.finish block data pos world accepted = mid.flush world) := by
  cases accepted with
  | false => exact ⟨node, rfl, rfl, .inl rfl⟩
  | true =>
    refine ⟨node.counted block data pos world, rfl, rfl, ?_⟩
    change node.on_accepted block data pos world = _ ∨ node.on_accepted block data pos world = _
    rw [LiveNodeInterface.on_accepted_eq]
    split
    · exact .inr rfl
    · exact .inl rfl

end

/-- What reaches a node: the bytes of a block, of a header or of a transaction. -/
inductive Arrival where
  | block (data : List UInt8) (world : World)
  | header (data : List UInt8) (now : Int)
  | transaction (data : List UInt8)

namespace Arrival

variable (env : Env)

def apply (self : LiveNodeInterface) : Arrival → LiveNodeInterface
  | .block data world => (self.process_block env data world).2
  | .header data now => (self.accept_block_header env data now).2
  | .transaction data => (self.process_transaction env data).2

/-- The blocks that were connected, after an arrival. -/
def record (self : LiveNodeInterface) (stored : StoredBlocks) : Arrival → StoredBlocks
  | .block data world => self.record env stored data world
  | _ => stored

/-- The conditions on a delivered block. -/
def Extends (self : LiveNodeInterface) : Arrival → Prop
  | .block data world => ∀ block rest pos, (Block.decode env.hash256).run data = .ok (block, rest) →
      world.block_pos = some pos → Extending env self block pos world
  | _ => True

/-- The index database accepts the batch of a flush. -/
def Indexes : Arrival → Prop
  | .block _ world => world.index_written = true
  | _ => True

end Arrival

variable (env : Env)

/-- An arrival that is handled to its end. -/
def WholeStep (state : LiveNodeInterface × StoredBlocks) (arrival : Arrival) (next : LiveNodeInterface × StoredBlocks) :
    Prop :=
  arrival.Extends env state.1 ∧ arrival.Indexes ∧ next = (arrival.apply env state.1, arrival.record env state.1 state.2)

/-- An arrival that is handled to its end over a database that keeps its coins. -/
def KeptStep (curve : Secp256k1) (state : LiveNodeInterface × StoredBlocks) (arrival : Arrival)
    (next : LiveNodeInterface × StoredBlocks) : Prop :=
  state.1.Keeps curve ∧ WholeStep env (state.1.reread curve, state.2) arrival next

/-- Where a run can be cut: between two arrivals, or in the handling of one, where the write of
    the index may be missing. -/
inductive Cut (node : LiveNodeInterface) (stored : StoredBlocks) : LiveNodeInterface → StoredBlocks → Prop where
  | between : Cut node stored node stored
  | inside {arrival : Arrival} (hextends : arrival.Extends env node) :
      Cut node stored (arrival.apply env node) (arrival.record env node stored)

section

variable {env} {node : LiveNodeInterface} {stored : StoredBlocks}

theorem Durable.apply (hdurable : Durable node.chainstate node.block_index_db stored) {arrival : Arrival}
    (hextends : arrival.Extends env node) :
    (arrival.Indexes → Durable (arrival.apply env node).chainstate (arrival.apply env node).block_index_db
        (arrival.record env node stored)) ∧
      (arrival.apply env node).chainstate.Headed ∧
      Left (arrival.apply env node).chainstate (arrival.record env node stored)
        (arrival.apply env node).chainstate.coins_tip.base (arrival.apply env node).block_index_db := by
  have hwhole : ∀ {after : LiveNodeInterface} {later : StoredBlocks},
      Durable after.chainstate after.block_index_db later →
      (arrival.Indexes → Durable after.chainstate after.block_index_db later) ∧ after.chainstate.Headed ∧
        Left after.chainstate later after.chainstate.coins_tip.base after.block_index_db :=
    fun hafter => ⟨fun _ => hafter, hafter.replayed.headed, hafter.left⟩
  cases arrival with
  | block data world =>
    obtain ⟨hsame, hrecord⟩ | ⟨block, rest, pos, hread, hpos, hhandled, hrecord⟩ :=
      node.process_block_recorded env stored data world
    · have hafter : Arrival.apply env node (.block data world) = node := hsame
      have hstored : Arrival.record env node stored (.block data world) = stored := hrecord
      rw [hafter, hstored]
      exact hwhole hdurable
    · have hextending := hextends block rest pos hread hpos
      have hsettled := hdurable.settled hextending
      obtain ⟨mid, accepted, hcarried, hmid, hfinish⟩ := hhandled.settled
      obtain ⟨last, hlast, hlast_db, hend⟩ := finish_cases mid block data pos world accepted
      have hstored : Arrival.record env node stored (.block data world) =
          store_block env stored block (node.answer env block pos world).1 := hrecord
      have hcommits := hextending.commits
      rw [← hmid, ← hlast] at hsettled hcommits
      rw [← hcarried.block_index_db, ← hlast_db] at hsettled
      rw [← hfinish] at hend
      obtain hend | hend := hend
      · have hafter : Arrival.apply env node (.block data world) = last := hend
        rw [hafter, hstored]
        exact hwhole hsettled
      · have hafter : Arrival.apply env node (.block data world) = last.flush world := hend
        rw [hafter, hstored]
        exact ⟨fun hindexes => hsettled.flush hcommits hindexes, hsettled.replayed.headed.congr rfl rfl rfl,
          hsettled.flush_left hcommits⟩
  | header data now =>
    have hafter : Durable (node.accept_block_header env data now).2.chainstate
        (node.accept_block_header env data now).2.block_index_db stored := by
      unfold LiveNodeInterface.accept_block_header
      split
      · exact hdurable
      · next header rest hread =>
        have hheader : Durable (node.chainstate.accept_block_header env header now).2 node.block_index_db stored :=
          hdurable.accept_block_header header now
        split
        · next haccept =>
          rw [haccept] at hheader
          exact hheader
        · next haccept =>
          rw [haccept] at hheader
          exact hheader
    exact hwhole hafter
  | transaction data =>
    obtain ⟨coins_tip, hreads, hbest, hafter | ⟨_, _, _, _, _, _, _, hafter⟩⟩ := node.process_transaction_cases env data
    · have hafter : Arrival.apply env node (.transaction data) =
          { node with chainstate := { node.chainstate with coins_tip } } := hafter
      rw [hafter]
      exact hwhole (hdurable.reads hreads hbest)
    · have hafter : Arrival.apply env node (.transaction data) =
          { node with chainstate := { node.chainstate with coins_tip }, mempool := _ } := hafter
      rw [hafter]
      exact hwhole (hdurable.reads hreads hbest)

theorem Durable.cut (hdurable : Durable node.chainstate node.block_index_db stored) {after : LiveNodeInterface}
    {later : StoredBlocks} (hcut : Cut env node stored after later) :
    after.chainstate.Headed ∧ Left after.chainstate later after.disk.coins_db after.disk.block_index_db := by
  cases hcut with
  | between => exact ⟨hdurable.replayed.headed, hdurable.left⟩
  | inside hextends => exact (hdurable.apply hextends).2

end

theorem startup_durable {settings : Settings} {world : World} {node : LiveNodeInterface}
    (hstart : startup env settings .empty world = .ok node)
    (horder : ∀ start, FromGenesis env settings.params ⟨∅, 0⟩ start → world.order.Perm start.coins_tip.cache.entries)
    (hwritten : world.coins_written = true) (hlisted : world.listed.toFinset = node.chainstate.dirty_indices) :
    Durable node.chainstate node.block_index_db (genesis_store env settings.params) := by
  have hfresh := startup_empty env hstart
  have hreplayed := (hfresh.pooled horder).replayed
  obtain ⟨hsingle, hpersisted, hindex⟩ := startup_empty_stored hstart hlisted
  have hlinear : node.chainstate.Linear := by
    intro idx hlt _
    obtain ⟨tip, hpath, _⟩ := hreplayed.headed.tip
    obtain rfl : idx = 0 := by omega
    exact List.mem_of_getElem? (hreplayed.headed.path_zero hpath)
  have hmarked := hfresh.marked
  have hcoins := hreplayed.coins
  obtain ⟨start, hgenesis, hview⟩ := hfresh.coins
  have hbase : node.chainstate.coins_tip.base.get_coin = node.chainstate.coins_tip.visible ∧
      node.chainstate.coins_tip.base.best_block = node.chainstate.coins_tip.best_block := by
    have hnone : ∀ outpoint, (⟨∅, 0⟩ : CoinsViewDB).get_coin outpoint = none := fun _ => rfl
    obtain ⟨hstart_replayed, _⟩ := FromGenesis.replayed env hnone hgenesis
    obtain ⟨hvisible, hbase, _⟩ := hstart_replayed.coherent.flush_to (horder start hgenesis)
    rw [hview, hwritten]
    exact ⟨hbase.trans hvisible.symm, rfl⟩
  refine ⟨hreplayed, hmarked, hlinear, hpersisted, node.chainstate.active_hashes, List.prefix_rfl, ?_, ?_, ?_⟩
  · rw [hbase.2]
    exact hmarked
  · rw [hbase.1]
    exact hcoins
  · refine hindex.imp_right fun hstored => ⟨node.chainstate.clear_dirty, hstored, rfl, hlinear, ?_, ?_⟩
    · exact ⟨le_rfl, fun _ => rfl, id⟩
    · exact (List.length_map ..).ge

/-- Every run from a new data directory that keeps all coins written to it, of blocks that extend the tip, cut
    anywhere (after the write of the coins of genesis too), is recovered by the next start exactly if the best
    block of the coins is in the index that was written. -/
theorem crash_recovers_iff (curve : Secp256k1) {settings : Settings} {world up : World} {node before after : LiveNodeInterface}
    {stored later : StoredBlocks} {arrivals : List Arrival} (hstart : startup env settings .empty world = .ok node)
    (horder : ∀ start, FromGenesis env settings.params ⟨∅, 0⟩ start → world.order.Perm start.coins_tip.cache.entries)
    (hwritten : world.coins_written = true) (hlisted : world.listed.toFinset = node.chainstate.dirty_indices)
    (hrun : Trace (KeptStep env curve) (node, genesis_store env settings.params) arrivals (before, stored))
    (hkept : before.Keeps curve) (hcut : Cut env (before.reread curve) stored after later) (hkeeps : after.Keeps curve)
    (hnamed : ∀ idx < after.chainstate.arena.length, (after.chainstate.entry idx).block_hash ≠ 0)
    (hup : up.order.Perm []) :
    (∃ restarted, startup env settings (after.disk.reread curve) up = .ok restarted ∧
        Recovered restarted.chainstate later) ↔
      ∃ record ∈ load_all after.disk.block_index_db, record.block_hash = after.disk.coins_db.best_block := by
  have hdurable : Durable before.chainstate before.block_index_db stored := by
    refine hrun.invariant (fun state => Durable state.1.chainstate state.1.block_index_db state.2) ?_
      (startup_durable env hstart horder hwritten hlisted)
    rintro ⟨node, stored⟩ arrival _ hdurable ⟨hkept, hwhole⟩
    have hreread : node.reread curve = node := hkept.reread
    rw [hreread] at hwhole
    obtain ⟨hextends, hindexes, rfl⟩ := hwhole
    exact (hdurable.apply hextends).1 hindexes
  rw [hkept.reread] at hcut
  rw [hkeeps.disk]
  obtain ⟨hheaded, hleft⟩ := hdurable.cut hcut
  exact hleft.recovers_iff hheaded hnamed hup

/-- The world of a call with the first block, whose flush writes the index or not. -/
def flushing_world (index_written : Bool) : World :=
  { eager_world.answering .op_true eager_node first_block ⟨0, 300⟩ with index_written }

/-- The eager node at the end of the flush of the first block, or between its two batches. -/
def flushing_node (index_written : Bool) : LiveNodeInterface :=
  (eager_node.process_block .op_true first_block.encode (flushing_world index_written)).2

theorem flushing_facts :
    (regtest_world 0).listed.toFinset = eager_node.chainstate.dirty_indices ∧
    (first_block.vtx.all fun tx => (outpoints tx).all fun entry =>
      (eager_node.chainstate.coins_tip.visible entry.1).isNone) = true ∧
    eager_world.listed.toFinset = (eager_node.settled .op_true first_block ⟨0, 300⟩ eager_world).dirty_indices ∧
    ((List.range (flushing_node true).chainstate.arena.length).all fun idx =>
      decide (((flushing_node true).chainstate.entry idx).block_hash ≠ 0)) = true ∧
    ((load_all (flushing_node true).disk.block_index_db).any fun record =>
      record.block_hash == (flushing_node true).disk.coins_db.best_block) = true ∧
    ((startup .op_true eager_settings (flushing_node false).disk
      { regtest_world 0 with order := [] }).toOption.any fun restarted =>
        decide (restarted.chainstate.active_hashes.getLast? ≠ some restarted.chainstate.coins_tip.best_block)) = true := by
  decide +kernel

theorem World.answering_fields (env : Env) (node : LiveNodeInterface) (block : Block) (pos : DiskBlockPos) (world : World)
    (index_written : Bool) :
    { world.answering env node block pos with index_written }.now = world.now ∧
      { world.answering env node block pos with index_written }.undo_pos = world.undo_pos ∧
      { world.answering env node block pos with index_written }.listed = world.listed ∧
      { world.answering env node block pos with index_written }.order =
        (node.answer env block pos world).2.coins_tip.cache.entries :=
  ⟨rfl, rfl, rfl, rfl⟩

theorem LiveNodeInterface.settled_congr (env : Env) (self : LiveNodeInterface) (block : Block) (pos : DiskBlockPos)
    {world other : World} (hnow : world.now = other.now) (hundo : world.undo_pos = other.undo_pos) :
    self.answer env block pos world = self.answer env block pos other ∧
      self.settled env block pos world = self.settled env block pos other := by
  have hanswer : self.answer env block pos world = self.answer env block pos other := by
    unfold LiveNodeInterface.answer
    rw [hnow]
  unfold LiveNodeInterface.settled
  rw [hanswer, hundo]
  exact ⟨rfl, rfl⟩

theorem LiveNodeInterface.settled_coins_tip (env : Env) (self : LiveNodeInterface) (block : Block) (pos : DiskBlockPos)
    (world : World) : (self.settled env block pos world).coins_tip = (self.answer env block pos world).2.coins_tip := by
  unfold LiveNodeInterface.settled
  split
  · exact LiveNodeInterface.set_undo_pos_coins_tip ..
  · rfl

theorem LiveNodeInterface.received_chainstate (env : Env) (self : LiveNodeInterface) (block : Block) (pos : DiskBlockPos)
    (dbcache_limit : UInt64) :
    ({ self with dbcache_limit }.received env block pos).chainstate = (self.received env block pos).chainstate := rfl

theorem first_block_extending (index_written : Bool) :
    Extending .op_true eager_node first_block ⟨0, 300⟩ (flushing_world index_written) := by
  obtain ⟨_, hnew, hlisted, _⟩ := flushing_facts
  obtain ⟨hnow, hundo, hlist, horder⟩ : (flushing_world index_written).now = eager_world.now ∧
      (flushing_world index_written).undo_pos = eager_world.undo_pos ∧
      (flushing_world index_written).listed = eager_world.listed ∧
      (flushing_world index_written).order =
        (eager_node.answer .op_true first_block ⟨0, 300⟩ eager_world).2.coins_tip.cache.entries :=
    World.answering_fields .op_true eager_node first_block ⟨0, 300⟩ eager_world index_written
  obtain ⟨hanswer, hsettled⟩ := eager_node.settled_congr .op_true first_block ⟨0, 300⟩ hnow hundo
  have hsame : (eager_node.received .op_true first_block ⟨0, 300⟩).chainstate =
      ((regtest_node none).received .op_true first_block ⟨0, 300⟩).chainstate :=
    (regtest_node none).received_chainstate .op_true first_block ⟨0, 300⟩ 0
  have hextends := first_block_extends none
  rw [← hsame] at hextends
  refine ⟨fun _ => .of_not_visible fun tx htx entry hentry => ?_, hextends, ⟨?_, ?_, rfl⟩⟩
  · exact Option.isNone_iff_eq_none.mp (List.all_eq_true.mp (List.all_eq_true.mp hnew tx htx) entry hentry)
  · rw [LiveNodeInterface.settled_coins_tip, hanswer, horder]
  · rw [hlist, hsettled]
    exact hlisted

theorem first_block_cut (index_written : Bool) :
    Cut .op_true eager_node (genesis_store .op_true .regtest) (flushing_node index_written)
      ((Arrival.block first_block.encode (flushing_world index_written)).record .op_true eager_node
        (genesis_store .op_true .regtest)) := by
  have hextends : (Arrival.block first_block.encode (flushing_world index_written)).Extends .op_true eager_node := by
    intro block rest pos hread hpos
    rw [decode_first_block] at hread
    cases hread
    cases hpos
    exact first_block_extending index_written
  exact @Cut.inside .op_true eager_node (genesis_store .op_true .regtest)
    (.block first_block.encode (flushing_world index_written)) hextends

theorem eager_node_keeps : eager_node.Keeps genesis_curve := storable_of_plain (by decide +kernel)

theorem flushing_node_keeps (index_written : Bool) : (flushing_node index_written).Keeps genesis_curve :=
  storable_of_plain (by cases index_written <;> decide +kernel)

theorem first_block_kept_cut (index_written : Bool) :
    Cut .op_true (eager_node.reread genesis_curve) (genesis_store .op_true .regtest) (flushing_node index_written)
      ((Arrival.block first_block.encode (flushing_world index_written)).record .op_true eager_node
        (genesis_store .op_true .regtest)) := by
  rw [eager_node_keeps.reread]
  exact first_block_cut index_written

/-- After the whole flush the first block is recovered. -/
theorem crash_recovers_first_block :
    ∃ restarted, startup .op_true eager_settings ((flushing_node true).disk.reread genesis_curve)
        { regtest_world 0 with order := [] } = .ok restarted ∧
      Recovered restarted.chainstate
        ((Arrival.block first_block.encode (flushing_world true)).record .op_true eager_node
          (genesis_store .op_true .regtest)) := by
  obtain ⟨hlisted, _, _, hnamed, hrecord, _⟩ := flushing_facts
  refine (crash_recovers_iff .op_true genesis_curve startup_eager (fun _ => regtest_world_lists) rfl hlisted (.nil _)
    eager_node_keeps (first_block_kept_cut true) (flushing_node_keeps true) (fun idx hlt => ?_) List.Perm.rfl).mpr ?_
  · exact of_decide_eq_true (List.all_eq_true.mp hnamed idx (List.mem_range.mpr hlt))
  · obtain ⟨record, hmem, hhash⟩ := List.any_eq_true.mp hrecord
    exact ⟨record, hmem, beq_iff_eq.mp hhash⟩

/-- Between the two batches of its flush it is not: the index does not know the best block of
    the coins, and the start goes on with a tip that is another block. -/
theorem crash_recovers_fails :
    ∃ after later, Cut .op_true (eager_node.reread genesis_curve) (genesis_store .op_true .regtest) after later ∧
      ¬ ∃ restarted, startup .op_true eager_settings (after.disk.reread genesis_curve) { regtest_world 0 with order := [] } =
          .ok restarted ∧ Recovered restarted.chainstate later := by
  obtain ⟨_, _, _, _, _, hother⟩ := flushing_facts
  refine ⟨_, _, first_block_kept_cut false, ?_⟩
  rw [(flushing_node_keeps false).disk]
  rintro ⟨restarted, hstart, _, hlast⟩
  rw [hstart] at hother
  exact of_decide_eq_true hother hlast

end qubitcoin.qubitcoind
