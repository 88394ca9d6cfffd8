import Qubitcoin.Chainstate.Persist
import Qubitcoin.Chainstate.Poison
import Qubitcoin.Coins.Flush
import Qubitcoin.Daemon.Admission
import Qubitcoin.Daemon.Steps
import Qubitcoin.Mempool.Backed

/-! The pool against the active chain: what its transactions spend is there to be spent, and
    none of them is confirmed. -/

open qubitcoin primitives script transaction block coins validation_state chainstate
  qubitcoin.validation mempool check chain chainparams parentTree transition
  chainstate.ChainstateManager

namespace qubitcoin.chainstate.ChainstateManager

variable {self : ChainstateManager} {stored : StoredBlocks}

theorem Replayed.set_file_pos (hreplayed : self.Replayed stored) (hash : BlockHash) (file : Int32) (data_pos : UInt32) :
    (self.set_file_pos hash file data_pos).Replayed stored := by
  unfold ChainstateManager.set_file_pos
  split
  · next idx _ => exact Replayed.set_pos hreplayed idx (fun _ => rfl) fun _ => rfl
  · exact hreplayed

theorem Replayed.set_undo_pos (hreplayed : self.Replayed stored) (hash : BlockHash) (undo_pos : UInt32) :
    (self.set_undo_pos hash undo_pos).Replayed stored := by
  unfold ChainstateManager.set_undo_pos
  split
  · next idx _ => exact Replayed.set_pos hreplayed idx (fun _ => rfl) fun _ => rfl
  · exact hreplayed

theorem flush_to_visible {view : CoinsViewCache} (hcoherent : view.Coherent)
    {order : List (Σ _ : OutPoint, CoinsCacheEntry)} (horder : order.Perm view.cache.entries) (written : Bool) :
    (view.flush_to order written).2.visible = view.visible ∧ (view.flush_to order written).2.Coherent := by
  cases written with
  | true => exact ⟨(hcoherent.flush_to horder).1, (hcoherent.flush_to horder).2.2⟩
  | false => exact ⟨rfl, hcoherent⟩

end qubitcoin.chainstate.ChainstateManager

namespace qubitcoin.qubitcoind

namespace LiveNodeInterface

variable (env : Env)

theorem resolve_inputs_reads {mempool : TxMemPool} {vin : List TxIn} : ∀ {found : Resolved} {coins : CoinsViewCache},
    coins.ReadsTo (resolve_inputs mempool vin found coins).2 := by
  induction vin with
  | nil => exact fun {_ coins} => .refl coins
  | cons input rest ih =>
    intro found coins
    unfold resolve_inputs
    split
    · exact ih
    · have hreads := coins.fetch_coin_reads input.prevout
      dsimp only
      split
      · exact hreads.trans ih
      · split
        · exact hreads
        · exact hreads.trans ih

theorem resolve_inputs_best_block {mempool : TxMemPool} {vin : List TxIn} : ∀ {found : Resolved} {coins : CoinsViewCache},
    (resolve_inputs mempool vin found coins).2.best_block = coins.best_block := by
  induction vin with
  | nil => exact fun {_ _} => rfl
  | cons input rest ih =>
    intro found coins
    have hfetch := coins.fetch_coin_best_block input.prevout
    unfold resolve_inputs
    split
    · exact ih
    · dsimp only
      split
      · exact ih.trans hfetch
      · split
        · exact hfetch
        · exact ih.trans hfetch

theorem process_transaction_cases (self : LiveNodeInterface) (data : List UInt8) :
    ∃ coins_tip, self.chainstate.coins_tip.ReadsTo coins_tip ∧
      coins_tip.best_block = self.chainstate.coins_tip.best_block ∧
      ((self.process_transaction env data).2 = { self with chainstate := { self.chainstate with coins_tip } } ∨
        ∃ tx rest found mempool, (deserialize_transaction env.hash256 true).run data = .ok (tx, rest) ∧
          resolve_inputs self.mempool tx.vin ⟨0, [], 0⟩ self.chainstate.coins_tip = (.ok found, coins_tip) ∧
          self.admission env tx found = .ok mempool ∧ (self.process_transaction env data).2 =
            { self with chainstate := { self.chainstate with coins_tip }, mempool }) := by
  unfold process_transaction
  cases hread : (deserialize_transaction env.hash256 true).run data with
  | error e => exact ⟨_, .refl _, rfl, .inl rfl⟩
  | ok result =>
    obtain ⟨tx, rest⟩ := result
    have hreads : self.chainstate.coins_tip.ReadsTo
        (resolve_inputs self.mempool tx.vin ⟨0, [], 0⟩ self.chainstate.coins_tip).2 := resolve_inputs_reads
    have hbest : (resolve_inputs self.mempool tx.vin ⟨0, [], 0⟩ self.chainstate.coins_tip).2.best_block =
        self.chainstate.coins_tip.best_block := resolve_inputs_best_block
    dsimp only
    cases hresolve : resolve_inputs self.mempool tx.vin ⟨0, [], 0⟩ self.chainstate.coins_tip with
    | mk result coins_tip =>
      rw [hresolve] at hreads hbest
      refine ⟨coins_tip, hreads, hbest, ?_⟩
      cases result with
      | error e => exact .inl rfl
      | ok found =>
        have hsame : ({ self with chainstate := { self.chainstate with coins_tip } } : LiveNodeInterface).admission env tx
            found = self.admission env tx found := rfl
        dsimp only
        rw [hsame]
        cases hadmission : self.admission env tx found with
        | error e => exact .inl rfl
        | ok mempool => exact .inr ⟨tx, rest, found, mempool, rfl, hresolve, hadmission, rfl⟩

theorem sourced_of_next_coins {self : LiveNodeInterface} {outpoint : OutPoint}
    (hsome : (self.next_coins outpoint).isSome = true) :
    (self.chainstate.coins_tip.visible outpoint).isSome = true ∨ Offers self.mempool.entries outpoint := by
  unfold next_coins at hsome
  cases hcoin : self.chainstate.coins_tip.visible outpoint with
  | some coin => exact .inl rfl
  | none =>
    rw [hcoin] at hsome
    unfold TxMemPool.get at hsome
    cases hparent : self.mempool.entries.lookup outpoint.hash with
    | none =>
      rw [hparent] at hsome
      cases hsome
    | some parent =>
      rw [hparent] at hsome
      cases houtput : parent.tx.vout[outpoint.n.toNat]? with
      | none =>
        dsimp only [Option.map_some, Option.bind_some] at hsome
        rw [houtput] at hsome
        cases hsome
      | some output => exact .inr ⟨parent, hparent, (List.getElem?_eq_some_iff.mp houtput).1⟩

end LiveNodeInterface

/-- A call of the network: the bytes of a block, with the world of the call, or those of a
    transaction. -/
inductive NetCall where
  | block (data : List UInt8) (world : World)
  | transaction (data : List UInt8)

variable (env : Env)

def NetCall.apply (self : LiveNodeInterface) : NetCall → LiveNodeInterface
  | .block data world => (self.process_block env data world).2
  | .transaction data => (self.process_transaction env data).2

/-- The blocks that were connected, after a call. -/
def NetCall.record (self : LiveNodeInterface) (stored : StoredBlocks) : NetCall → StoredBlocks
  | .block data world => self.record env stored data world
  | .transaction _ => stored

/-- No transaction of the block is in the pool, and none spends what one of the pool spends. -/
def Foreign (pool : TxMemPool) (block : Block) : Prop :=
  ∀ tx ∈ block.vtx, pool.entries.lookup tx.txid = none ∧ (tx.is_coinbase = false → ∀ input ∈ tx.vin,
    ∀ txid entry, pool.entries.lookup txid = some entry → ¬ SpendsOutPoint entry.tx input.prevout)

/-- The calls that leave the pool as the chain needs it. A block that gets to its connection
    extends the tip; its transactions are new, not in the pool and spend nothing that the pool
    spends. A transaction whose id is that of a confirmed one has the inputs of that one. -/
def NetCall.Undisturbing (self : LiveNodeInterface) (stored : StoredBlocks) : NetCall → Prop
  | .block data world => ∀ block rest pos, (Block.decode env.hash256).run data = .ok (block, rest) →
      world.block_pos = some pos → (self.received env block pos).chainstate.ExtendsTip env block world.now ∧
        world.order.Perm (self.answer env block pos world).2.coins_tip.cache.entries ∧
        (((self.received env block pos).chainstate.at_connect env block world.now).isSome = true →
          Anew stored self.chainstate.active_hashes block ∧ Foreign self.mempool block)
  | .transaction data => ∀ tx rest old, (deserialize_transaction env.hash256 true).run data = .ok (tx, rest) →
      Confirmed stored self.chainstate.active_hashes old → old.txid = tx.txid →
      old.vin.map TxIn.prevout = tx.vin.map TxIn.prevout

/-- A step of the node, with the blocks that were connected. -/
def UndisturbingStep (state : LiveNodeInterface × StoredBlocks) (call : NetCall)
    (next : LiveNodeInterface × StoredBlocks) : Prop :=
  call.Undisturbing env state.1 state.2 ∧ next = (call.apply env state.1, call.record env state.1 state.2)

theorem UndisturbingStep.intro {self : LiveNodeInterface} {stored : StoredBlocks} {call : NetCall}
    (hundisturbing : call.Undisturbing env self stored) :
    UndisturbingStep env (self, stored) call (call.apply env self, call.record env self stored) := ⟨hundisturbing, rfl⟩

/-- What holds of the node and the connected blocks along such a run. -/
structure Pooled (node : LiveNodeInterface) (stored : StoredBlocks) : Prop where
  replayed : node.chainstate.Replayed stored
  accounted : Accounted stored node.chainstate.active_hashes node.chainstate.coins_tip.visible
  indexed : mempool.Indexed node.mempool
  backed : Backed node.chainstate.coins_tip.visible node.mempool.entries
  unconfirmed : ∀ tx, Confirmed stored node.chainstate.active_hashes tx → node.mempool.entries.lookup tx.txid = none

variable {env} {node : LiveNodeInterface} {stored : StoredBlocks}

theorem Pooled.congr (hpooled : Pooled node stored) {after : LiveNodeInterface}
    (hreplayed : after.chainstate.Replayed stored)
    (hhashes : after.chainstate.active_hashes = node.chainstate.active_hashes)
    (hvisible : after.chainstate.coins_tip.visible = node.chainstate.coins_tip.visible)
    (hmempool : after.mempool = node.mempool) : Pooled after stored := by
  refine ⟨hreplayed, ?_, ?_, ?_, ?_⟩
  · rw [hhashes, hvisible]
    exact hpooled.accounted
  · rw [hmempool]
    exact hpooled.indexed
  · rw [hvisible, hmempool]
    exact hpooled.backed
  · rw [hhashes, hmempool]
    exact hpooled.unconfirmed

theorem Pooled.reads (hpooled : Pooled node stored) {coins_tip : CoinsViewCache}
    (hreads : node.chainstate.coins_tip.ReadsTo coins_tip) :
    Pooled { node with chainstate := { node.chainstate with coins_tip } } stored :=
  hpooled.congr (hpooled.replayed.with_coins (hreads.coherent hpooled.replayed.coherent) hreads.visible) rfl
    hreads.visible rfl

theorem is_coinbase_congr {tx other : Transaction}
    (hsame : tx.vin.map TxIn.prevout = other.vin.map TxIn.prevout) : tx.is_coinbase = other.is_coinbase := by
  unfold Transaction.is_coinbase
  generalize tx.vin = inputs at hsame ⊢
  generalize other.vin = others at hsame ⊢
  cases inputs with
  | nil =>
    obtain rfl := List.map_eq_nil_iff.mp hsame.symm
    rfl
  | cons input inputs =>
    obtain ⟨same, others, rfl, hprevout, hrest⟩ := List.map_eq_cons_iff.mp hsame.symm
    cases inputs with
    | nil =>
      obtain rfl := List.map_eq_nil_iff.mp hrest
      dsimp only
      rw [hprevout]
    | cons next inputs =>
      obtain ⟨_, _, rfl, _, _⟩ := List.map_eq_cons_iff.mp hrest
      rfl

theorem Pooled.not_confirmed (hpooled : Pooled node stored) {tx old : Transaction}
    (hcoinbase : tx.is_coinbase = false)
    (hinputs : ∀ input ∈ tx.vin, (node.next_coins input.prevout).isSome = true)
    (hsame : old.vin.map TxIn.prevout = tx.vin.map TxIn.prevout) :
    ¬ Confirmed stored node.chainstate.active_hashes old := by
  intro hconfirmed
  obtain ⟨input, hinput, hnone, creator, hcreator, hhash⟩ :=
    hpooled.accounted.spent old hconfirmed ((is_coinbase_congr hsame).trans hcoinbase)
  obtain ⟨other, hother, hprevout⟩ := List.mem_map.mp (hsame ▸ List.mem_map_of_mem hinput)
  obtain hcoin | ⟨parent, hparent, _⟩ := LiveNodeInterface.sourced_of_next_coins (hinputs other hother)
  · rw [hprevout, hnone] at hcoin
    cases hcoin
  · rw [hprevout, ← hhash, hpooled.unconfirmed creator hcreator] at hparent
    cases hparent

theorem Pooled.process_transaction (hpooled : Pooled node stored) {data : List UInt8}
    (hundisturbing : (NetCall.transaction data).Undisturbing env node stored) :
    Pooled (node.process_transaction env data).2 stored := by
  obtain ⟨coins_tip, hreads, _, hafter | ⟨tx, rest, found, mempool, hread, hresolve, hadmission, hafter⟩⟩ :=
    node.process_transaction_cases env data
  · rw [hafter]
    exact hpooled.reads hreads
  · have hafter_reads := hpooled.reads hreads
    obtain ⟨hmissing, hcoinbase, hlength, fee, haccept⟩ := LiveNodeInterface.admission_ok env hadmission
    have hinputs := LiveNodeInterface.resolved_inputs hresolve hmissing hlength
    obtain ⟨hbacked, hentries⟩ := hafter_reads.backed.accept_to_mempool hpooled.indexed haccept
      fun input hinput => (LiveNodeInterface.sourced_of_next_coins (hinputs input hinput).2).imp_left
        fun hcoin => hreads.visible.symm ▸ hcoin
    rw [hafter]
    refine ⟨hafter_reads.replayed, hafter_reads.accounted, hpooled.indexed.accept_to_mempool haccept, hbacked, ?_⟩
    intro old hconfirmed
    by_contra hsome
    obtain ⟨entry, hentry⟩ := Option.ne_none_iff_exists'.mp hsome
    obtain ⟨hid, _⟩ | ⟨present, hpresent, _⟩ := hentries old.txid entry hentry
    · exact hpooled.not_confirmed hcoinbase (fun input hinput => (hinputs input hinput).2)
        (hundisturbing tx rest old hread hconfirmed hid) hconfirmed
    · rw [hpooled.unconfirmed old hconfirmed] at hpresent
      cases hpresent

theorem Pooled.process_new_block (hpooled : Pooled node stored) {block : Block} {now : Int} (block_reader : BlockReader)
    (hextends : node.chainstate.ExtendsTip env block now)
    (happart : (node.chainstate.at_connect env block now).isSome = true →
      Anew stored node.chainstate.active_hashes block ∧ Foreign node.mempool block) :
    Pooled { node with chainstate := (node.chainstate.process_new_block env block now block_reader).2 }
      (store_block env stored block (node.chainstate.process_new_block env block now block_reader).1) := by
  have hunshadowed : (node.chainstate.at_connect env block now).isSome = true →
      Unshadowed node.chainstate.coins_tip block.vtx :=
    fun hreach => .of_not_visible (hpooled.accounted.unissued (happart hreach).1).free
  obtain ⟨hreplayed, _⟩ := hpooled.replayed.process_new_block env block_reader hunshadowed hextends
  have hstep := hpooled.replayed.tip_step env block_reader hunshadowed hextends
  have haccounted := hpooled.replayed.accounted env hpooled.accounted (fun hreach => (happart hreach).1) hstep
  refine ⟨hreplayed, haccounted, hpooled.indexed, ?_, ?_⟩
  · generalize (node.chainstate.process_new_block env block now block_reader).1 = result at hstep
    generalize (node.chainstate.process_new_block env block now block_reader).2 = after at hstep ⊢
    cases hstep with
    | stays _ _ hvisible =>
      dsimp only
      rw [hvisible]
      exact hpooled.backed
    | @appends idx mid _ undo coins_tip hreach hblock hconnect _ _ hvisible =>
      obtain ⟨hanew, hforeign⟩ := happart (by rw [hreach]; rfl)
      obtain ⟨_, _, hcoins, _⟩ := ChainstateManager.at_connect_frame env hreach
      unfold ChainstateManager.connect_new_block at hconnect
      rw [hcoins] at hconnect
      obtain ⟨happlied, _⟩ := connect_block_inputs env hblock hpooled.replayed.coherent
        (hpooled.accounted.unissued hanew) hconnect
      refine hpooled.backed.mono fun txid entry hentry input hinput hcoin => ?_
      dsimp only
      rw [hvisible, happlied]
      refine apply_txs_kept (fun tx htx hcoinbase other hother heq => ?_) hcoin
      exact (hforeign tx htx).2 hcoinbase other hother txid entry hentry ⟨input, hinput, heq.symm⟩
  · generalize (node.chainstate.process_new_block env block now block_reader).1 = result at hstep
    generalize (node.chainstate.process_new_block env block now block_reader).2 = after at hstep ⊢
    cases hstep with
    | stays hresult hhashes _ =>
      rw [store_block_of_not_connected env stored block hresult]
      dsimp only
      rw [hhashes]
      exact hpooled.unconfirmed
    | appends hreach _ _ hnew hhashes _ =>
      intro tx hconfirmed
      dsimp only at hconfirmed
      rw [hhashes] at hconfirmed
      obtain hold | htx := (confirmed_concat hnew).mp hconfirmed
      · exact hpooled.unconfirmed tx hold
      · exact ((happart (by rw [hreach]; rfl)).2 tx htx).1

theorem Pooled.process_block (hpooled : Pooled node stored) {data : List UInt8} {world : World}
    (hundisturbing : (NetCall.block data world).Undisturbing env node stored) :
    Pooled (node.process_block env data world).2 ((NetCall.block data world).record env node stored) := by
  obtain ⟨hsame, hrecord⟩ | ⟨block, rest, pos, hread, hpos, hhandled, hrecord⟩ :=
    node.process_block_recorded env stored data world
  · have hrecord : (NetCall.block data world).record env node stored = stored := hrecord
    rw [hsame, hrecord]
    exact hpooled
  · have hrecord : (NetCall.block data world).record env node stored =
        store_block env stored block (node.answer env block pos world).1 := hrecord
    obtain ⟨hextends, horder, happart⟩ := hundisturbing block rest pos hread hpos
    have hhashes := (hpooled.replayed.headed.set_file_pos (block.block_hash env.hash256) pos.file pos.pos).2
    have hreceived : Pooled (node.received env block pos) stored := by
      refine hpooled.congr (hpooled.replayed.set_file_pos (block.block_hash env.hash256) pos.file pos.pos) hhashes ?_ rfl
      exact congrArg CoinsViewCache.visible (set_file_pos_coins_tip ..)
    have happart : ((node.received env block pos).chainstate.at_connect env block world.now).isSome = true →
        Anew stored (node.received env block pos).chainstate.active_hashes block ∧
          Foreign (node.received env block pos).mempool block := by
      intro hreach
      have hkept : (node.received env block pos).chainstate.active_hashes = node.chainstate.active_hashes := hhashes
      rw [hkept]
      exact happart hreach
    have hanswer := hreceived.process_new_block (node.received env block pos).block_files.reader hextends happart
    rw [hrecord]
    refine hhandled.invariant env (P := fun current => Pooled current _) hanswer ?_
      (fun _ hcurrent => hcurrent.congr hcurrent.replayed rfl rfl rfl) ?_
    · intro current undo undo_pos hcurrent
      obtain ⟨_, hkept⟩ := hcurrent.replayed.headed.set_undo_pos (block.block_hash env.hash256) undo_pos
      refine hcurrent.congr (hcurrent.replayed.set_undo_pos (block.block_hash env.hash256) undo_pos) hkept ?_ rfl
      exact congrArg CoinsViewCache.visible (LiveNodeInterface.set_undo_pos_coins_tip ..)
    · intro current hcurrent hcoins
      rw [← hcoins] at horder
      obtain ⟨hvisible, hcoherent⟩ :=
        ChainstateManager.flush_to_visible hcurrent.replayed.coherent horder world.coins_written
      have hflushed := hcurrent.replayed.with_coins hcoherent hvisible
      exact hcurrent.congr ⟨Sound.clear_dirty hflushed.toSound, hflushed.tip, hflushed.coherent,
        hflushed.coins⟩ rfl hvisible rfl

theorem Fresh.pooled {settings : Settings} {world : World} (hfresh : Fresh env settings world node)
    (horder : ∀ start, FromGenesis env settings.params ⟨∅, 0⟩ start → world.order.Perm start.coins_tip.cache.entries) :
    Pooled node (genesis_store env settings.params) := by
  obtain ⟨start, hstart, hcoins⟩ := hfresh.coins
  have hempty : ∀ outpoint, (⟨∅, 0⟩ : CoinsViewDB).get_coin outpoint = none := fun _ => rfl
  obtain ⟨hreplayed, _⟩ := FromGenesis.replayed env hempty hstart
  have haccounted := FromGenesis.accounted env hempty hstart
  have hhashes : node.chainstate.active_hashes = start.active_hashes :=
    hfresh.active_hashes.trans (FromGenesis.headed env hstart).2.symm
  obtain ⟨hvisible, hcoherent⟩ :=
    ChainstateManager.flush_to_visible hreplayed.coherent (horder start hstart) world.coins_written
  rw [← hcoins] at hvisible hcoherent
  rw [← hhashes, ← hvisible] at haccounted
  have hcoins_replayed := hreplayed.coins
  rw [← hhashes, ← hvisible] at hcoins_replayed
  have hindexed : mempool.Indexed TxMemPool.new := by
    refine ⟨fun hentry => absurd hentry (Option.some_ne_none _).symm, ⟨fun hspender => ?_, ?_⟩, rfl⟩
    · exact absurd hspender (Option.some_ne_none _).symm
    · rintro ⟨_, hentry, _⟩
      exact absurd hentry (Option.some_ne_none _).symm
  refine ⟨⟨hfresh.headed.toSound, hfresh.headed.tip, hcoherent, hcoins_replayed⟩, haccounted, ?_, ?_, ?_⟩
  · rw [hfresh.mempool]
    exact hindexed
  · rw [hfresh.mempool]
    intro txid entry hentry
    exact absurd hentry (Option.some_ne_none _).symm
  · rw [hfresh.mempool]
    exact fun _ _ => rfl

variable (env) in
/-- In every run from a new data directory, of calls that leave the pool as the chain needs it,
    every input of the pool is a coin or an output of another entry, and no entry is confirmed. -/
theorem mempool_matches_chain {settings : Settings} {world : World} {after : LiveNodeInterface} {calls : List NetCall}
    (hstart : startup env settings .empty world = .ok node)
    (horder : ∀ start, FromGenesis env settings.params ⟨∅, 0⟩ start → world.order.Perm start.coins_tip.cache.entries)
    (hrun : Trace (UndisturbingStep env) (node, genesis_store env settings.params) calls (after, stored)) :
    (∀ txid entry, after.mempool.entries.lookup txid = some entry → ∀ input ∈ entry.tx.vin,
      (after.chainstate.coins_tip.visible input.prevout).isSome = true ∨ (input.prevout.hash ≠ txid ∧
        ∃ parent, after.mempool.entries.lookup input.prevout.hash = some parent ∧
          input.prevout.n.toNat < parent.tx.vout.length)) ∧
    ∀ hash ∈ after.chainstate.active_hashes, ∃ block, stored hash = some block ∧
      ∀ tx ∈ block.vtx, after.mempool.entries.lookup tx.txid = none := by
  have hpooled : Pooled after stored := by
    refine hrun.invariant (fun state => Pooled state.1 state.2) ?_ ((startup_empty env hstart).pooled horder)
    rintro ⟨node, stored⟩ call _ hpooled ⟨hundisturbing, rfl⟩
    cases call with
    | block data world => exact Pooled.process_block hpooled hundisturbing
    | transaction data => exact Pooled.process_transaction hpooled hundisturbing
  refine ⟨hpooled.backed, fun hash hhash => ?_⟩
  obtain ⟨block, hblock⟩ := hpooled.accounted.blocks hash hhash
  exact ⟨block, hblock, fun tx htx => hpooled.unconfirmed tx ⟨hash, hhash, block, hblock, htx⟩⟩

def first_payment : Transaction :=
  LiveNodeInterface.spend_unsigned [⟨(sample_coinbase [0x51, 0x01] 5000000000).txid, 0⟩] 4000000000

/-- A world in which the cache that the chainstate answers with is iterated in its own order. -/
def World.answering (env : Env) (node : LiveNodeInterface) (block : Block) (pos : DiskBlockPos) (self : World) : World :=
  { self with order := (node.answer env block pos self).2.coins_tip.cache.entries }

theorem regtest_world_order (pos : UInt32) : (regtest_world pos).order = regtest_manager.coins_tip.cache.entries := by
  simp only [regtest_world]

theorem regtest_world_lists {start : ChainstateManager} (hstart : FromGenesis .op_true .regtest ⟨∅, 0⟩ start) :
    (regtest_world 0).order.Perm start.coins_tip.cache.entries := by
  obtain rfl : regtest_manager = start := Except.ok.inj (regtest_manager_from_genesis.symm.trans hstart)
  rw [regtest_world_order]

theorem World.answering_order (env : Env) (node : LiveNodeInterface) (block : Block) (pos : DiskBlockPos)
    (self : World) :
    (self.answering env node block pos).order =
      (node.answer env block pos (self.answering env node block pos)).2.coins_tip.cache.entries := rfl

def first_world : World := (regtest_world 300).answering .op_true (regtest_node none) first_block ⟨0, 300⟩

theorem first_world_order :
    first_world.order = ((regtest_node none).answer .op_true first_block ⟨0, 300⟩ first_world).2.coins_tip.cache.entries := by
  unfold first_world
  rw [World.answering_order]

def first_node : LiveNodeInterface := (NetCall.block first_block.encode first_world).apply .op_true (regtest_node none)

def first_stored : StoredBlocks :=
  (NetCall.block first_block.encode first_world).record .op_true (regtest_node none) (genesis_store .op_true .regtest)

def payment_node : LiveNodeInterface :=
  (NetCall.transaction (serialize_transaction first_payment true)).apply .op_true first_node

theorem first_node_facts :
    (deserialize_transaction Env.op_true.hash256 true).run (serialize_transaction first_payment true) =
      .ok (first_payment, []) ∧
    (((regtest_node none).answer .op_true first_block ⟨0, 300⟩ first_world).1.toOption.any fun result =>
      result.2.isSome) = true ∧
    first_node.chainstate.active_hashes =
      [regtest_genesis.block_hash Env.op_true.hash256] ++ [first_block.block_hash Env.op_true.hash256] ∧
    first_block.block_hash Env.op_true.hash256 ∉ [regtest_genesis.block_hash Env.op_true.hash256] ∧
    (first_block.vtx.all fun tx => regtest_genesis.vtx.all fun old => decide (tx.txid ≠ old.txid)) = true ∧
    (first_block.vtx ++ regtest_genesis.vtx).all (fun old => decide (old.txid ≠ first_payment.txid)) = true ∧
    (payment_node.mempool.entries.lookup first_payment.txid).isSome = true := by
  decide +kernel

theorem confirmed_genesis {old : Transaction}
    (hconfirmed : Confirmed (genesis_store .op_true .regtest) [regtest_genesis.block_hash Env.op_true.hash256] old) :
    old ∈ regtest_genesis.vtx := by
  obtain ⟨hash, hhash, block, hblock, hold⟩ := hconfirmed
  rw [List.mem_singleton.mp hhash] at hblock
  unfold genesis_store at hblock
  have hsame : (Function.update (fun _ => none) (regtest_genesis.block_hash Env.op_true.hash256) (some regtest_genesis) :
    StoredBlocks) (regtest_genesis.block_hash Env.op_true.hash256) = some block := hblock
  rw [Function.update_self] at hsame
  cases hsame
  exact hold

theorem first_block_undisturbing :
    (NetCall.block first_block.encode first_world).Undisturbing .op_true (regtest_node none)
      (genesis_store .op_true .regtest) := by
  obtain ⟨_, _, _, _, hids, _⟩ := first_node_facts
  have hfresh := startup_empty .op_true (startup_regtest none)
  intro block rest pos hread hpos
  rw [decode_first_block] at hread
  cases hread
  cases hpos
  refine ⟨first_block_extends none, .of_eq first_world_order, fun _ => ⟨?_, ?_⟩⟩
  · intro tx htx old hconfirmed
    rw [hfresh.active_hashes] at hconfirmed
    exact of_decide_eq_true (List.all_eq_true.mp (List.all_eq_true.mp hids tx htx) old (confirmed_genesis hconfirmed))
  · intro tx _
    rw [hfresh.mempool]
    exact ⟨rfl, fun _ _ _ _ _ hentry => nomatch hentry⟩

theorem first_payment_undisturbing :
    (NetCall.transaction (serialize_transaction first_payment true)).Undisturbing .op_true first_node first_stored := by
  obtain ⟨hdecode_tx, hanswer, hhashes, hnew, _, hother, _⟩ := first_node_facts
  obtain ⟨⟨accepted, undo⟩, hresult, hundo⟩ := (Option.any_eq_true _ _).mp hanswer
  obtain ⟨undo, rfl⟩ := Option.isSome_iff_exists.mp hundo
  have hstored : first_stored = Function.update (genesis_store .op_true .regtest)
      (first_block.block_hash Env.op_true.hash256) (some first_block) := by
    have hpos : first_world.block_pos = some ⟨0, 300⟩ := rfl
    have hrecord : first_stored = (regtest_node none).record .op_true (genesis_store .op_true .regtest)
        first_block.encode first_world := rfl
    rw [hrecord]
    unfold LiveNodeInterface.record
    rw [decode_first_block, hpos]
    dsimp only
    cases hok : ((regtest_node none).answer .op_true first_block ⟨0, 300⟩ first_world).1 with
    | error e =>
      rw [hok] at hresult
      cases hresult
    | ok result =>
      rw [hok] at hresult
      cases hresult
      rfl
  intro tx rest old hread hconfirmed hid
  rw [hdecode_tx] at hread
  cases hread
  rw [hstored, hhashes] at hconfirmed
  have hmem : old ∈ first_block.vtx ++ regtest_genesis.vtx := by
    obtain hgenesis | hfirst := (confirmed_concat hnew).mp hconfirmed
    · exact List.mem_append_right _ (confirmed_genesis hgenesis)
    · exact List.mem_append_left _ hfirst
  exact absurd hid (of_decide_eq_true (List.all_eq_true.mp hother old hmem))

/-- A payment in the pool of a node with one block has its coins. -/
theorem mempool_matches_chain_first_payment :
    ∃ entry, payment_node.mempool.entries.lookup first_payment.txid = some entry ∧ ∀ input ∈ entry.tx.vin,
      (payment_node.chainstate.coins_tip.visible input.prevout).isSome = true ∨
        (input.prevout.hash ≠ first_payment.txid ∧ ∃ parent,
          payment_node.mempool.entries.lookup input.prevout.hash = some parent ∧
            input.prevout.n.toNat < parent.tx.vout.length) := by
  obtain ⟨_, _, _, _, _, _, hsome⟩ := first_node_facts
  obtain ⟨entry, hentry⟩ := Option.isSome_iff_exists.mp hsome
  have hrun := Trace.cons (UndisturbingStep.intro .op_true first_block_undisturbing)
    (Trace.cons (UndisturbingStep.intro .op_true first_payment_undisturbing) (.nil _))
  unfold payment_node first_node at hentry ⊢
  have hmatches := mempool_matches_chain .op_true (startup_regtest none) (fun _ => regtest_world_lists) hrun
  exact ⟨entry, hentry, hmatches.1 _ entry hentry⟩

def second_rival : Block := regtest_block rival_block [sample_coinbase [0x52, 0x02] 5000000000] 1

/-- The first block is delivered, and once more so that its place is known; what it pays is spent
    in the pool; then the other branch gets longer. -/
def reorganizing_calls : List NetCall :=
  [.block first_block.encode (regtest_world 300), .block first_block.encode (regtest_world 300),
    .transaction (serialize_transaction first_payment true), .block rival_block.encode (regtest_world 600),
    .block second_rival.encode (regtest_world 900)]

theorem NetCall.apply_block (env : Env) (self : LiveNodeInterface) (data : List UInt8) (world : World) :
    (NetCall.block data world).apply env self = (self.process_block env data world).2 := rfl

/-- The rest of a call with a block, once its header is in an index. -/
def LiveNodeInterface.after_header (env : Env) (self : LiveNodeInterface) (manager : ChainstateManager) (block : Block)
    (data : List UInt8) (pos : DiskBlockPos) (world : World) (idx : Nat) : LiveNodeInterface :=
  match manager.process_body env block idx self.block_files.reader with
  | (.error _, chainstate) => { self with chainstate }
  | (.ok (accepted, block_undo), chainstate) =>
    ({ self with chainstate }.after_process env block data pos world accepted block_undo).2

theorem LiveNodeInterface.process_block_of_new_header (env : Env) {self received : LiveNodeInterface} {block : Block}
    {data rest : List UInt8} {pos : DiskBlockPos} {world : World} {prev_idx idx : Nat} {manager : ChainstateManager}
    (hread : (Block.decode env.hash256).run data = .ok (block, rest)) (hpos : world.block_pos = some pos)
    (hreceived : received = self.received env block pos)
    (hnew : received.chainstate.block_index.find_by_hash (block.header.block_hash env.hash256) = none)
    (hcheck : received.chainstate.check_new_header env block.header world.now = .ok prev_idx)
    (hmanager : manager = received.chainstate.add_header env block.header prev_idx)
    (hidx : received.chainstate.block_index.indices.length = idx) (hconnected : manager.is_connected idx = false) :
    (self.process_block env data world).2 = received.after_header env manager block data pos world idx := by
  have hwritten : self.write_block (block.block_hash env.hash256) block pos = received := hreceived.symm
  unfold process_block after_header
  rw [hread, hpos]
  dsimp only
  rw [hwritten]
  unfold ChainstateManager.process_new_block ChainstateManager.accept_block_header
  rw [hnew]
  dsimp only
  rw [hcheck]
  dsimp only
  rw [← hmanager, hidx, hconnected, if_neg Bool.false_ne_true]
  cases manager.process_body env block idx received.block_files.reader with
  | mk result chainstate =>
    cases result with
    | error e => rfl
    | ok result => rfl

/-- The node before the last call, once the last block is written. -/
def rival_node : LiveNodeInterface :=
  ((reorganizing_calls.take 4).foldl (NetCall.apply .op_true) (regtest_node none)).received .op_true second_rival ⟨0, 900⟩

/-- The index with the header of the last block. -/
def rival_manager : ChainstateManager := rival_node.chainstate.add_header .op_true second_rival.header 2

/-- The node after the last call, from the answer of its chainstate on. -/
def reorganized_node : LiveNodeInterface :=
  rival_node.after_header .op_true rival_manager second_rival second_rival.encode ⟨0, 900⟩ (regtest_world 900) 3

theorem rival_node_facts :
    (collect_ancestors_from rival_node.chainstate.arena MEDIAN_TIME_SPAN (some 2)).map BlockIndex.get_block_time =
      [1296689202, 1296688602] ∧
    rival_node.chainstate.block_index.find_by_hash (second_rival.header.block_hash Env.op_true.hash256) = none ∧
    check_proof_of_work (second_rival.header.block_hash Env.op_true.hash256) second_rival.header.bits
      rival_node.chainstate.params.consensus = true ∧
    rival_node.chainstate.block_index.find_by_hash second_rival.header.prev_blockhash = some 2 ∧
    (rival_node.chainstate.entry 2).status.has_failed = false ∧
    rival_node.chainstate.block_index.indices.length = 3 ∧ rival_manager.is_connected 3 = false ∧
    (rival_node.chainstate.entry 2).height = 1 ∧ 
    (let params := rival_node.chainstate.params.consensus
    (params.bip34_height, params.bip66_height, params.bip65_height, params.enforce_bip94, params.pow_no_retargeting) =
      (1, 1, 1, false, true)) ∧
    (Block.decode Env.op_true.hash256).run second_rival.encode = .ok (second_rival, []) ∧
    ((reorganized_node.mempool.entries.lookup first_payment.txid).any fun entry => entry.tx.vin.any fun input =>
      (reorganized_node.chainstate.coins_tip.visible input.prevout).isNone &&
        (reorganized_node.mempool.entries.lookup input.prevout.hash).isNone) = true := by
  decide +kernel

theorem rival_median : compute_mtp rival_node.chainstate.arena 2 = 1296689202 := by
  obtain ⟨htimes, _⟩ := rival_node_facts
  unfold compute_mtp collect_mtp_ancestors BlockIndex.get_median_time_past
  rw [List.map_take, htimes]
  simp [MEDIAN_TIME_SPAN, List.mergeSort]

theorem second_rival_header :
    rival_node.chainstate.check_new_header .op_true second_rival.header regtest_now = .ok 2 := by
  obtain ⟨_, _, hpow, hparent, hfailed, _, _, hheight, hparams, _⟩ := rival_node_facts
  refine (check_new_header_eq_ok .op_true).mpr ⟨hpow, hparent, hfailed, ?_⟩
  unfold contextual_check_block_header_with_arena
  simp only [Prod.mk.injEq] at hparams
  obtain ⟨h34, h66, h65, h94, hretarget⟩ := hparams
  rw [rival_median, hheight, h34, h66, h65, h94, hretarget]
  simp only [Bool.or_true, Bool.false_and]
  decide +kernel

theorem last_call : (NetCall.block second_rival.encode (regtest_world 900)).apply .op_true
    ((reorganizing_calls.take 4).foldl (NetCall.apply .op_true) (regtest_node none)) = reorganized_node := by
  obtain ⟨_, hnew, _, _, _, hlength, hconnected, _, _, hread, _⟩ := rival_node_facts
  have hpos : (regtest_world 900).block_pos = some ⟨0, 900⟩ := by simp only [regtest_world]
  rw [NetCall.apply_block]
  exact LiveNodeInterface.process_block_of_new_header .op_true hread hpos (rfl : rival_node = _) hnew second_rival_header
    (rfl : rival_manager = _) hlength hconnected

/-- The first block leaves the chain, and the payment stays in the pool without its coin. -/
theorem mempool_matches_chain_fails :
    ∃ node after entry, startup .op_true (regtest_settings none) .empty (regtest_world 0) = .ok node ∧
      Trace (fun node call next => next = NetCall.apply .op_true node call) node reorganizing_calls after ∧
      after.mempool.entries.lookup first_payment.txid = some entry ∧ ∃ input ∈ entry.tx.vin,
        after.chainstate.coins_tip.visible input.prevout = none ∧
        after.mempool.entries.lookup input.prevout.hash = none := by
  obtain ⟨_, _, _, _, _, _, _, _, _, _, hmissing⟩ := rival_node_facts
  obtain ⟨entry, hentry, hinput⟩ := (Option.any_eq_true _ _).mp hmissing
  obtain ⟨input, hmem, hmissing⟩ := List.any_eq_true.mp hinput
  obtain ⟨hcoin, hparent⟩ := Bool.and_eq_true_iff.mp hmissing
  have hcalls : reorganizing_calls = reorganizing_calls.take 4 ++ [.block second_rival.encode (regtest_world 900)] := rfl
  have hrun := Trace.of_foldl (fun node call => NetCall.apply .op_true node call) reorganizing_calls (regtest_node none)
  rw [hcalls, List.foldl_append, List.foldl_cons, List.foldl_nil, last_call, ← hcalls] at hrun
  exact ⟨_, _, entry, startup_regtest none, hrun, hentry,
    input, hmem, Option.isNone_iff_eq_none.mp hcoin, Option.isNone_iff_eq_none.mp hparent⟩

end qubitcoin.qubitcoind
