import Qubitcoin.Chainstate.Calls
import Qubitcoin.Daemon.Pooled
import Qubitcoin.Storage.Wrapper

/-! `qubitcoind/main.rs`: `scantxoutset`, and when it reports the coins that the node sees. -/

open qubitcoin primitives script transaction block coins chainstate qubitcoin.validation mempool
  chainparams transition

namespace qubitcoin.qubitcoind

/-- An entry of the result. The amount is in satoshis. -/
structure Unspent where
  txid : Txid
  vout : UInt32
  script_pubkey : List UInt8
  desc : String
  amount : Amount
  coinbase : Bool
  height : UInt32
  deriving DecidableEq

structure ScanResult where
  searched_items : Nat
  unspents : List Unspent

/-- What is reported of a coin: an entry for the first target that is its script. -/
def scan_coin (target_scripts : List (String × List UInt8)) (outpoint : OutPoint) (coin : Coin) : Option Unspent :=
  (target_scripts.find? fun target => coin.tx_out.script_pubkey.data == target.2).map fun target =>
    { txid := outpoint.hash
      vout := outpoint.n
      script_pubkey := coin.tx_out.script_pubkey.data
      desc := target.1
      amount := coin.tx_out.value
      coinbase := coin.coinbase
      height := coin.height }

variable (curve : Secp256k1)

/-- The scan for the scripts of the descriptors that could be parsed. -/
def LiveNodeInterface.scantxoutset (self : LiveNodeInterface) (target_scripts : List (String × List UInt8)) : ScanResult :=
  if target_scripts.isEmpty then ⟨0, []⟩
  else
    { searched_items := target_scripts.length
      unspents := (self.chainstate.coins_tip.base.iter_all_coins curve).filterMap fun (outpoint, coin) =>
        scan_coin target_scripts outpoint coin }

theorem lawful_scripts : LawfulBEq (List UInt8) := List.instLawfulBEq

/-- The amount, the height and the kind of a coin that has one of the scripts. -/
def reported (target_scripts : List (String × List UInt8)) : Option Coin → Option (Amount × UInt32 × Bool)
  | none => none
  | some coin =>
    haveI := lawful_scripts
    if coin.tx_out.script_pubkey.data ∈ target_scripts.map Prod.snd then
      some (coin.tx_out.value, coin.height, coin.coinbase)
    else none

def Unspent.outpoint (self : Unspent) : OutPoint := ⟨self.txid, self.vout⟩

/-- The entries are those of the coins that a map shows under one of the scripts, each once. -/
def ScanResult.Lists (self : ScanResult) (coins : CoinsMap) (target_scripts : List (String × List UInt8)) : Prop :=
  (self.unspents.map Unspent.outpoint).Nodup ∧ ∀ outpoint amount height coinbase,
    (∃ unspent ∈ self.unspents, unspent.outpoint = outpoint ∧ unspent.amount = amount ∧ unspent.height = height ∧
      unspent.coinbase = coinbase) ↔
    ∃ coin, coins outpoint = some coin ∧ coin.tx_out.script_pubkey.data ∈ target_scripts.map Prod.snd ∧
      coin.tx_out.value = amount ∧ coin.height = height ∧ coin.coinbase = coinbase

variable {curve} {target_scripts : List (String × List UInt8)}

theorem reported_eq_some {shown : Option Coin} {amount : Amount} {height : UInt32} {coinbase : Bool} :
    reported target_scripts shown = some (amount, height, coinbase) ↔
      ∃ coin, shown = some coin ∧ coin.tx_out.script_pubkey.data ∈ target_scripts.map Prod.snd ∧
        coin.tx_out.value = amount ∧ coin.height = height ∧ coin.coinbase = coinbase := by
  cases shown with
  | none => exact ⟨nofun, fun ⟨_, h, _⟩ => nomatch h⟩
  | some coin =>
    unfold reported
    constructor
    · intro h
      dsimp only at h
      split at h
      · next hmem =>
        cases h
        exact ⟨coin, rfl, hmem, rfl, rfl, rfl⟩
      · cases h
    · rintro ⟨_, heq, hmem, rfl, rfl, rfl⟩
      cases heq
      exact if_pos hmem

theorem scan_coin_eq_some {outpoint : OutPoint} {coin : Coin} {unspent : Unspent}
    (hscan : scan_coin target_scripts outpoint coin = some unspent) :
    unspent.outpoint = outpoint ∧
      reported target_scripts (some coin) = some (unspent.amount, unspent.height, unspent.coinbase) := by
  unfold scan_coin at hscan
  obtain ⟨target, hfind, rfl⟩ := Option.map_eq_some_iff.mp hscan
  have hmatch : (coin.tx_out.script_pubkey.data == target.2) = true :=
    List.find?_some (p := fun target : String × List UInt8 => coin.tx_out.script_pubkey.data == target.2) hfind
  have hsame := beq_iff_eq.mp hmatch
  exact ⟨rfl, reported_eq_some.mpr ⟨coin, rfl, hsame ▸ List.mem_map_of_mem (List.mem_of_find?_eq_some hfind), rfl, rfl, rfl⟩⟩

theorem scan_coin_of_reported (outpoint : OutPoint) {coin : Coin} {report : Amount × UInt32 × Bool}
    (hreported : reported target_scripts (some coin) = some report) :
    ∃ unspent, scan_coin target_scripts outpoint coin = some unspent := by
  obtain ⟨amount, height, coinbase⟩ := report
  obtain ⟨_, heq, hmem, _⟩ := reported_eq_some.mp hreported
  cases heq
  obtain ⟨target, htarget, hsame⟩ := List.mem_map.mp hmem
  have hfind : (target_scripts.find? fun target => coin.tx_out.script_pubkey.data == target.2).isSome = true :=
    List.find?_isSome.mpr ⟨target, htarget, beq_iff_eq.mpr hsame.symm⟩
  obtain ⟨found, hfound⟩ := Option.isSome_iff_exists.mp hfind
  unfold scan_coin
  rw [hfound]
  exact ⟨_, rfl⟩

theorem LiveNodeInterface.mem_scantxoutset (self : LiveNodeInterface) {unspent : Unspent} :
    unspent ∈ (self.scantxoutset curve target_scripts).unspents ↔ ∃ outpoint coin,
      (self.chainstate.coins_tip.base.coins.lookup outpoint).bind (Coin.read_back curve) = some coin ∧
        scan_coin target_scripts outpoint coin = some unspent := by
  unfold scantxoutset
  split
  · next hempty =>
    rw [List.isEmpty_iff] at hempty
    subst hempty
    exact ⟨nofun, fun ⟨_, _, _, h⟩ => nomatch h⟩
  · rw [List.mem_filterMap, Prod.exists]
    exact exists_congr fun _ => exists_congr fun _ => and_congr_left' CoinsViewDB.mem_iter_all_coins

theorem LiveNodeInterface.scantxoutset_nodup (self : LiveNodeInterface) :
    ((self.scantxoutset curve target_scripts).unspents.map Unspent.outpoint).Nodup := by
  unfold scantxoutset
  split
  · exact List.nodup_nil
  · have hsub : (((self.chainstate.coins_tip.base.iter_all_coins curve).filterMap fun entry =>
        scan_coin target_scripts entry.1 entry.2).map Unspent.outpoint).Sublist
        ((self.chainstate.coins_tip.base.iter_all_coins curve).map Prod.fst) := by
      induction self.chainstate.coins_tip.base.iter_all_coins curve with
      | nil => exact List.Sublist.refl []
      | cons entry rest ih =>
        rw [List.filterMap_cons]
        split
        · exact ih.cons _
        · next hscan =>
          rw [List.map_cons, List.map_cons, (scan_coin_eq_some hscan).1]
          exact ih.cons_cons _
    exact hsub.nodup (CoinsViewDB.iter_all_coins_nodup _)

/-- A scan lists the coins of a map, where the stored coins are reported, as their records are read, as those
    of the map. -/
theorem LiveNodeInterface.scantxoutset_lists_iff (self : LiveNodeInterface) (coins : CoinsMap) :
    (self.scantxoutset curve target_scripts).Lists coins target_scripts ↔ ∀ outpoint,
      reported target_scripts ((self.chainstate.coins_tip.base.coins.lookup outpoint).bind (Coin.read_back curve)) =
        reported target_scripts (coins outpoint) := by
  have hscanned : ∀ outpoint amount height coinbase,
      (∃ unspent ∈ (self.scantxoutset curve target_scripts).unspents, unspent.outpoint = outpoint ∧ unspent.amount = amount ∧
        unspent.height = height ∧ unspent.coinbase = coinbase) ↔
      reported target_scripts ((self.chainstate.coins_tip.base.coins.lookup outpoint).bind (Coin.read_back curve)) =
        some (amount, height, coinbase) := by
    intro outpoint amount height coinbase
    constructor
    · rintro ⟨unspent, hmem, rfl, rfl, rfl, rfl⟩
      obtain ⟨outpoint, coin, hlookup, hscan⟩ := self.mem_scantxoutset.mp hmem
      obtain ⟨rfl, hreported⟩ := scan_coin_eq_some hscan
      rw [hlookup]
      exact hreported
    · intro hreported
      obtain ⟨coin, hlookup, _⟩ := reported_eq_some.mp hreported
      rw [hlookup] at hreported
      obtain ⟨unspent, hscan⟩ := scan_coin_of_reported outpoint hreported
      obtain ⟨houtpoint, hsame⟩ := scan_coin_eq_some hscan
      rw [hreported] at hsame
      cases hsame
      exact ⟨unspent, self.mem_scantxoutset.mpr ⟨outpoint, coin, hlookup, hscan⟩, houtpoint, rfl, rfl, rfl⟩
  unfold ScanResult.Lists
  rw [and_iff_right self.scantxoutset_nodup]
  constructor
  · intro hlists outpoint
    refine Option.ext fun ⟨amount, height, coinbase⟩ => ?_
    rw [← hscanned, hlists, reported_eq_some]
  · intro hsame outpoint amount height coinbase
    rw [hscanned, hsame, reported_eq_some]

/-- Over a cache that is anchored in a database that keeps its coins, the `DIRTY` entries decide. -/
theorem LiveNodeInterface.scantxoutset_visible_iff (self : LiveNodeInterface) (hkeeps : self.Keeps curve)
    (hanchored : self.chainstate.coins_tip.Anchored) :
    (self.scantxoutset curve target_scripts).Lists self.chainstate.coins_tip.visible target_scripts ↔
      ∀ outpoint entry, self.chainstate.coins_tip.cache.lookup outpoint = some entry → entry.flags.is_dirty = true →
        reported target_scripts entry.shown =
          reported target_scripts (self.chainstate.coins_tip.base.coins.lookup outpoint) := by
  have hread : ∀ outpoint, (self.chainstate.coins_tip.base.coins.lookup outpoint).bind (Coin.read_back curve) =
      self.chainstate.coins_tip.base.coins.lookup outpoint := fun outpoint => by
    rw [← CoinsViewDB.lookup_read_back, CoinsViewDB.Storable.read_back hkeeps]
  rw [self.scantxoutset_lists_iff]
  simp only [hread]
  constructor
  · intro hsame outpoint entry hlookup _
    rw [hsame, CoinsViewCache.visible_of_cached hlookup]
  · intro hdirty outpoint
    by_cases hclean : ∀ entry, self.chainstate.coins_tip.cache.lookup outpoint = some entry → entry.flags.is_dirty = false
    · rw [hanchored.visible_eq hclean]
    · obtain ⟨entry, hentry⟩ := not_forall.mp hclean
      obtain ⟨hlookup, hflag⟩ := Classical.not_imp.mp hentry
      rw [CoinsViewCache.visible_of_cached hlookup]
      exact (hdirty outpoint entry hlookup (Bool.eq_true_of_not_eq_false hflag)).symm

theorem LiveNodeInterface.flush_clean (self : LiveNodeInterface) {world : World}
    (horder : world.order.Perm self.chainstate.coins_tip.cache.entries) (hwritten : world.coins_written = true)
    {outpoint : OutPoint} {entry : CoinsCacheEntry}
    (hlookup : (self.flush world).chainstate.coins_tip.cache.lookup outpoint = some entry) :
    entry.flags.is_dirty = false := by
  have hcoins : (self.flush world).chainstate.coins_tip =
      (self.chainstate.coins_tip.flush_to world.order world.coins_written).2 := rfl
  rw [hcoins, hwritten] at hlookup
  rw [(CoinsViewCache.flush_to_kept horder hlookup).1]
  rfl

inductive NodeCall where
  | net (call : NetCall)
  | flush (world : World)

variable (env : Env) (curve : Secp256k1)

def NodeCall.apply (self : LiveNodeInterface) : NodeCall → LiveNodeInterface
  | .net call => call.apply env self
  | .flush world => self.flush world

/-- A flush in the step goes through the entries of the cache, in some order. -/
def NodeCall.Listing (self : LiveNodeInterface) : NodeCall → Prop
  | .net (.block data world) => ∀ block rest pos, (Block.decode env.hash256).run data = .ok (block, rest) →
      world.block_pos = some pos → world.order.Perm (self.answer env block pos world).2.coins_tip.cache.entries
  | .net (.transaction _) => True
  | .flush world => world.order.Perm self.chainstate.coins_tip.cache.entries

/-- The coins that the database holds before the step are kept by it. -/
def ListingStep (self : LiveNodeInterface) (call : NodeCall) (next : LiveNodeInterface) : Prop :=
  self.Keeps curve ∧ call.Listing env (self.reread curve) ∧ next = call.apply env (self.reread curve)

variable {env} {curve} {node : LiveNodeInterface}

theorem CoinsViewCache_anchored_kept : KeptByChain CoinsViewCache.Anchored where
  toKeptByCalls := CoinsViewCache.Anchored.kept
  set_best_block _ hanchored := ⟨hanchored.unspent, hanchored.clean⟩

theorem anchored_process_block {data : List UInt8} {world : World} (hanchored : node.chainstate.coins_tip.Anchored)
    (horder : (NodeCall.net (.block data world)).Listing env node) :
    (node.process_block env data world).2.chainstate.coins_tip.Anchored := by
  obtain hsame | ⟨block, rest, pos, hread, hpos, hhandled⟩ := node.process_block_cases env data world
  · rw [hsame]
    exact hanchored
  · have hreceived : (node.received env block pos).chainstate.coins_tip.Anchored := by
      have hcoins : (node.received env block pos).chainstate.coins_tip = node.chainstate.coins_tip :=
        ChainstateManager.set_file_pos_coins_tip ..
      rw [hcoins]
      exact hanchored
    have hanswer := CoinsViewCache_anchored_kept.process_new_block env block world.now
      (node.received env block pos).block_files.reader hreceived
    refine hhandled.invariant env (P := fun current => current.chainstate.coins_tip.Anchored) hanswer ?_ (fun _ h => h) ?_
    · intro current undo undo_pos hcurrent
      have hcoins : (current.write_undo (block.block_hash env.hash256) pos.file undo undo_pos).chainstate.coins_tip =
          current.chainstate.coins_tip := LiveNodeInterface.set_undo_pos_coins_tip ..
      rw [hcoins]
      exact hcurrent
    · intro current hcurrent hcoins
      have hlisting := horder block rest pos hread hpos
      rw [← hcoins] at hlisting
      exact hcurrent.flush_to hlisting world.coins_written

theorem anchored_resolve_inputs {pool : TxMemPool} {vin : List TxIn} :
    ∀ {found : LiveNodeInterface.Resolved} {coins : CoinsViewCache}, coins.Anchored →
      (LiveNodeInterface.resolve_inputs pool vin found coins).2.Anchored := by
  induction vin with
  | nil => exact fun hcoins => hcoins
  | cons input rest ih =>
    intro found coins hcoins
    have hfetch := CoinsViewCache.Anchored.kept.fetch_coin hcoins input.prevout
    unfold LiveNodeInterface.resolve_inputs
    split
    · exact ih hcoins
    · dsimp only
      split
      · exact ih hfetch
      · split
        · exact hfetch
        · exact ih hfetch

theorem anchored_process_transaction {data : List UInt8} (hanchored : node.chainstate.coins_tip.Anchored) :
    (node.process_transaction env data).2.chainstate.coins_tip.Anchored := by
  unfold LiveNodeInterface.process_transaction
  split
  · exact hanchored
  · next tx rest _ =>
    have hresolve : (LiveNodeInterface.resolve_inputs node.mempool tx.vin ⟨0, [], 0⟩
      node.chainstate.coins_tip).2.Anchored := anchored_resolve_inputs hanchored
    dsimp only
    split
    · exact hresolve
    · split
      · exact hresolve
      · exact hresolve

theorem anchored_step {call : NodeCall} {next : LiveNodeInterface} (hanchored : node.chainstate.coins_tip.Anchored)
    (hstep : ListingStep env curve node call next) : next.chainstate.coins_tip.Anchored := by
  obtain ⟨hkeeps, hlisting, rfl⟩ := hstep
  rw [hkeeps.reread] at hlisting ⊢
  cases call with
  | net call =>
    cases call with
    | block data world => exact anchored_process_block hanchored hlisting
    | transaction data => exact anchored_process_transaction hanchored
  | flush world => exact hanchored.flush_to hlisting world.coins_written

theorem anchored_fresh {settings : Settings} {world : World} (hfresh : Fresh env settings world node)
    (horder : ∀ start, FromGenesis env settings.params ⟨∅, 0⟩ start → world.order.Perm start.coins_tip.cache.entries) :
    node.chainstate.coins_tip.Anchored := by
  obtain ⟨start, hstart, hcoins⟩ := hfresh.coins
  have hnew : (CoinsViewCache.new ⟨∅, 0⟩).Anchored := ⟨nofun, nofun⟩
  have hanchored : start.coins_tip.Anchored := by
    have hgenesis := hstart
    unfold FromGenesis ChainstateManager.load_genesis_block at hgenesis
    dsimp only at hgenesis
    split at hgenesis
    · cases hgenesis
    · split at hgenesis
      · cases hgenesis
        exact hnew
      · split at hgenesis
        · cases hgenesis
        · next coins_tip hadd =>
          cases hgenesis
          refine CoinsViewCache_anchored_kept.set_best_block _ ?_
          unfold ChainstateManager.add_genesis_coins at hadd
          split at hadd
          · cases hadd
            exact hnew
          · exact CoinsViewCache.Anchored.kept.add_coins hnew hadd
  rw [hcoins]
  exact hanchored.flush_to (horder start hstart) world.coins_written

variable (env) (curve) in
/-- In every state that a node gets to from a new data directory that keeps all coins written to it, a scan lists the coins that the
    node sees if and only if no pending entry is reported otherwise than what is stored under it. -/
theorem scan_current_iff {settings : Settings} {world : World} {after : LiveNodeInterface} {calls : List NodeCall}
    (hstart : startup env settings .empty world = .ok node)
    (horder : ∀ start, FromGenesis env settings.params ⟨∅, 0⟩ start → world.order.Perm start.coins_tip.cache.entries)
    (hrun : Trace (ListingStep env curve) node calls after) (hkeeps : after.Keeps curve) (target_scripts : List (String × List UInt8)) :
    (after.scantxoutset curve target_scripts).Lists after.chainstate.coins_tip.visible target_scripts ↔
      ∀ outpoint entry, after.chainstate.coins_tip.cache.lookup outpoint = some entry → entry.flags.is_dirty = true →
        reported target_scripts entry.shown =
          reported target_scripts (after.chainstate.coins_tip.base.coins.lookup outpoint) := by
  have hanchored : after.chainstate.coins_tip.Anchored :=
    hrun.invariant (fun node => node.chainstate.coins_tip.Anchored) anchored_step
      (anchored_fresh (startup_empty env hstart) horder)
  exact after.scantxoutset_visible_iff hkeeps hanchored

/-- The script that the first block pays to. -/
def first_target : List (String × List UInt8) := [("raw(51)", op_true.data)]

theorem first_block_listing : (NodeCall.net (.block first_block.encode first_world)).Listing .op_true (regtest_node none) := by
  intro block rest pos hread hpos
  rw [decode_first_block] at hread
  cases hread
  cases hpos
  exact .of_eq first_world_order

theorem regtest_keeps : (regtest_node none).Keeps genesis_curve := storable_of_plain (by decide +kernel)

theorem first_node_keeps : first_node.Keeps genesis_curve := storable_of_plain (by decide +kernel)

theorem first_block_step :
    ListingStep .op_true genesis_curve (regtest_node none) (.net (.block first_block.encode first_world)) first_node := by
  have hreread := regtest_keeps.reread
  refine ⟨regtest_keeps, ?_, ?_⟩
  · rw [hreread]
    exact first_block_listing
  · rw [hreread]
    unfold first_node
    rfl

/-- The world of a flush of the node with the first block. -/
def flushing_first : World := { regtest_world 0 with order := first_node.chainstate.coins_tip.cache.entries }

theorem flushing_first_order : flushing_first.order = first_node.chainstate.coins_tip.cache.entries :=
  (regtest_world 0).with_order _

/-- The coin of the first block is listed after a flush. -/
theorem scan_current_iff_flushed :
    ((first_node.flush flushing_first).scantxoutset genesis_curve first_target).Lists
      (first_node.flush flushing_first).chainstate.coins_tip.visible first_target := by
  have hflush : (NodeCall.flush flushing_first).Listing .op_true first_node := .of_eq flushing_first_order
  have hstep : ListingStep .op_true genesis_curve first_node (.flush flushing_first) (first_node.flush flushing_first) := by
    have hreread := first_node_keeps.reread
    refine ⟨first_node_keeps, ?_, ?_⟩
    · rw [hreread]
      exact hflush
    · rw [hreread]
      rfl
  have hrun : Trace (ListingStep .op_true genesis_curve) (regtest_node none)
      [.net (.block first_block.encode first_world), .flush flushing_first] (first_node.flush flushing_first) :=
    .cons first_block_step (.cons hstep (.nil _))
  have hkeeps : (first_node.flush flushing_first).Keeps genesis_curve := storable_of_plain (by decide +kernel)
  refine (scan_current_iff .op_true genesis_curve (startup_regtest none) (fun _ => regtest_world_lists) hrun hkeeps
    first_target).mpr fun outpoint entry hlookup hdirty => ?_
  rw [first_node.flush_clean hflush rfl hlookup] at hdirty
  cases hdirty

theorem first_node_scan :
    reported first_target ((first_node.chainstate.coins_tip.base.coins.lookup
      ⟨(sample_coinbase [0x51, 0x01] 5000000000).txid, 0⟩).bind (Coin.read_back genesis_curve)) = none ∧
    reported first_target (first_node.chainstate.coins_tip.visible
      ⟨(sample_coinbase [0x51, 0x01] 5000000000).txid, 0⟩) = some (5000000000, 1, true) := by
  decide +kernel

/-- Until then it is not: the scan does not look at the cache. -/
theorem scan_current_fails :
    ∃ after, startup .op_true (regtest_settings none) .empty (regtest_world 0) = .ok (regtest_node none) ∧
      Trace (ListingStep .op_true genesis_curve) (regtest_node none) [.net (.block first_block.encode first_world)] after ∧
      ¬ (after.scantxoutset genesis_curve first_target).Lists after.chainstate.coins_tip.visible first_target := by
  refine ⟨first_node, startup_regtest none, .cons first_block_step (.nil _), fun hlists => ?_⟩
  have hsame := (first_node.scantxoutset_lists_iff _).mp hlists ⟨(sample_coinbase [0x51, 0x01] 5000000000).txid, 0⟩
  rw [first_node_scan.1, first_node_scan.2] at hsame
  cases hsame

end qubitcoin.qubitcoind
