import Qubitcoin.Chainstate.Replayed
import Qubitcoin.Validation.Spent

/-! The mark of the coins: the block that they are the state after. It is the tip of the active
    chain, as long as the chain only grows. -/

open qubitcoin primitives transaction block coins params check validation_state chain chainparams
  qubitcoin.validation parentTree transition

namespace qubitcoin.coins

theorem CoinsViewCache.fetch_coin_best_block (self : CoinsViewCache) (outpoint : OutPoint) :
    (self.fetch_coin outpoint).2.best_block = self.best_block := by
  unfold CoinsViewCache.fetch_coin
  split
  · split <;> rfl
  · split
    · split <;> rfl
    · rfl

theorem CoinsViewCache.insert_fetched_best_block (entries : List (OutPoint × Option Coin)) :
    ∀ self : CoinsViewCache, (self.insert_fetched entries).best_block = self.best_block := by
  induction entries with
  | nil => exact fun _ => rfl
  | cons entry rest ih =>
    obtain ⟨outpoint, coin⟩ := entry
    intro self
    unfold CoinsViewCache.insert_fetched
    split
    · split
      · exact ih self
      · exact ih _
    · exact ih self

theorem CoinsViewCache.spend_coin_best_block (self : CoinsViewCache) (outpoint : OutPoint) :
    (self.spend_coin outpoint).2.best_block = self.best_block := by
  rw [← self.fetch_coin_best_block outpoint]
  unfold CoinsViewCache.spend_coin CoinsViewCache.spend_cached
  split
  · rfl
  · split <;> rfl

theorem CoinsViewCache.add_coin_best_block {self after : CoinsViewCache} {outpoint : OutPoint} {coin : Coin}
    {possible_overwrite : Bool} (hadd : self.add_coin outpoint coin possible_overwrite = .ok after) :
    after.best_block = self.best_block := by
  unfold CoinsViewCache.add_coin at hadd
  split at hadd
  · cases hadd
  · split at hadd
    · cases hadd
      rfl
    · split at hadd
      · split at hadd
        · cases hadd
        · cases hadd
          rfl
      · cases hadd
        rfl

theorem add_outputs_best_block {height : UInt32} {is_coinbase check_for_overwrite : Bool}
    {outputs : List (OutPoint × TxOut)} : ∀ {view after : CoinsViewCache},
      add_outputs height is_coinbase check_for_overwrite outputs view = .ok after →
      after.best_block = view.best_block := by
  induction outputs with
  | nil =>
    intro view after hadd
    cases hadd
    rfl
  | cons entry rest ih =>
    obtain ⟨outpoint, output⟩ := entry
    intro view after hadd
    unfold add_outputs at hadd
    cases check_for_overwrite with
    | false =>
      obtain ⟨mid, hmid, hrest⟩ := bind_eq_ok_iff.mp hadd
      exact (ih hrest).trans (CoinsViewCache.add_coin_best_block hmid)
    | true =>
      obtain ⟨mid, hmid, hrest⟩ := bind_eq_ok_iff.mp hadd
      exact ((ih hrest).trans (CoinsViewCache.add_coin_best_block hmid)).trans (view.fetch_coin_best_block outpoint)

end qubitcoin.coins

namespace qubitcoin.validation

theorem have_any_coin_best_block (outpoints : List OutPoint) :
    ∀ view : CoinsViewCache, (have_any_coin outpoints view).2.best_block = view.best_block := by
  induction outpoints with
  | nil => exact fun _ => rfl
  | cons outpoint rest ih =>
    intro view
    unfold have_any_coin CoinsViewCache.have_coin
    dsimp only
    split
    · exact view.fetch_coin_best_block outpoint
    · exact (ih _).trans (view.fetch_coin_best_block outpoint)

theorem fetch_inputs_best_block (inputs : List TxIn) :
    ∀ view : CoinsViewCache, (fetch_inputs inputs view).2.best_block = view.best_block := by
  induction inputs with
  | nil => exact fun _ => rfl
  | cons input rest ih => exact fun view => (ih _).trans (view.fetch_coin_best_block input.prevout)

theorem spend_inputs_best_block (inputs : List TxIn) :
    ∀ view : CoinsViewCache, (spend_inputs inputs view).best_block = view.best_block := by
  induction inputs with
  | nil => exact fun _ => rfl
  | cons input rest ih => exact fun view => (ih _).trans (view.spend_coin_best_block input.prevout)

theorem connect_tx_best_block (ctx : ConnectContext) (tx : Transaction) (totals : ConnectTotals) (view : CoinsViewCache) :
    (connect_tx ctx tx totals view).2.best_block = view.best_block := by
  unfold connect_tx
  have hfetch : (if tx.is_coinbase then ([], view) else fetch_inputs tx.vin view).2.best_block = view.best_block := by
    split
    · rfl
    · exact fetch_inputs_best_block tx.vin view
  generalize (if tx.is_coinbase then ([], view) else fetch_inputs tx.vin view) = fetched at hfetch ⊢
  obtain ⟨input_coins, read⟩ := fetched
  dsimp only at hfetch ⊢
  split
  · exact hfetch
  · have hspend : (if tx.is_coinbase then read else spend_inputs tx.vin read).best_block = view.best_block := by
      split
      · exact hfetch
      · exact (spend_inputs_best_block tx.vin read).trans hfetch
    split
    · exact hspend
    · next hadd => exact (add_outputs_best_block hadd).trans hspend

theorem connect_txs_best_block (ctx : ConnectContext) (txs : List Transaction) : ∀ (totals : ConnectTotals)
    (view : CoinsViewCache), (connect_txs ctx txs totals view).2.best_block = view.best_block := by
  induction txs with
  | nil => exact fun _ _ => rfl
  | cons tx rest ih =>
    intro totals view
    have hfirst := connect_tx_best_block ctx tx totals view
    unfold connect_txs
    split
    · next heq =>
      rw [heq] at hfirst
      exact hfirst
    · next after_totals undo mid heq =>
      rw [heq] at hfirst
      have hrest := (ih after_totals mid).trans hfirst
      split
      · next hloop =>
        rw [hloop] at hrest
        exact hrest
      · next hloop =>
        rw [hloop] at hrest
        exact hrest

theorem connect_block_best_block (env : Env) (block : Block) (height : Int) (view : CoinsViewCache)
    (params : ConsensusParams) (mtp_at_height : Option (Int → Int)) (skip_scripts : Bool) :
    (connect_block env block height view params mtp_at_height skip_scripts).2.best_block = view.best_block := by
  have hbip30 : (check_bip30 env block height params view).2.best_block = view.best_block := by
    unfold check_bip30
    split
    · exact have_any_coin_best_block _ view
    · rfl
  unfold connect_block
  split
  · next heq =>
    rw [heq] at hbip30
    exact hbip30
  · next read heq =>
    rw [heq] at hbip30
    have hloop := (connect_txs_best_block (connect_context env block height params mtp_at_height) block.vtx ⟨0, 0⟩
      (read.prefetch_coins (all_input_outpoints block.vtx))).trans
      ((CoinsViewCache.insert_fetched_best_block _ read).trans hbip30)
    dsimp only
    split
    · next hconnect =>
      rw [hconnect] at hloop
      exact hloop
    · next hconnect =>
      rw [hconnect] at hloop
      split
      · exact hloop
      · exact hloop

end qubitcoin.validation

namespace qubitcoin.chainstate

namespace ChainstateManager

variable {self : ChainstateManager}

/-- The coins are marked with the tip of the active chain. -/
def Marked (self : ChainstateManager) : Prop := self.active_hashes.getLast? = some self.coins_tip.best_block

theorem Marked.congr {after : ChainstateManager} (hmarked : self.Marked) (hhashes : after.active_hashes = self.active_hashes)
    (hbest : after.coins_tip.best_block = self.coins_tip.best_block) : after.Marked := by
  unfold Marked
  rw [hhashes, hbest]
  exact hmarked

theorem Advance.eq_of_error {before after : List BlockHash} {hash : BlockHash} {e : Failure BlockValidationState}
    (hadvance : Advance before hash (.error e) after) : after = before := by
  cases hadvance with
  | stays _ => rfl

theorem Advance.eq_of_known {before after : List BlockHash} {hash : BlockHash} {accepted : Bool}
    (hadvance : Advance before hash (.ok (accepted, none)) after) : after = before := by
  cases hadvance with
  | stays _ => rfl
  | repeated _ _ => rfl

variable (env : Env)

theorem Marked.process_new_block (hmarked : self.Marked) (hheaded : self.Headed) {block : Block} {now : Int}
    (block_reader : BlockReader) (hclimbs : self.Climbs env block now) :
    (self.process_new_block env block now block_reader).2.Marked := by
  obtain ⟨_, hadvance⟩ := hheaded.process_new_block env block_reader hclimbs
  have hstart_coins := (self.accept_block_header_frame env block.header now).2.2.1
  have hmid : ∀ {idx mid}, self.accept_block_header env block.header now = (.ok idx, mid) →
      mid.coins_tip.best_block = self.coins_tip.best_block := by
    intro idx mid hheader
    rw [hheader] at hstart_coins
    exact congrArg CoinsViewCache.best_block hstart_coins
  have hprocessed := self.process_new_block_processed env block now block_reader
  generalize (self.process_new_block env block now block_reader).1 = result at hprocessed hadvance
  generalize (self.process_new_block env block now block_reader).2 = after at hprocessed hadvance ⊢
  cases hprocessed with
  | header _ => exact hmarked
  | known hheader _ => exact hmarked.congr hadvance.eq_of_known (hmid hheader)
  | body hheader _ _ =>
    refine hmarked.congr hadvance.eq_of_error ?_
    rw [mark_failed_coins_tip]
    exact hmid hheader
  | context hheader _ _ _ =>
    have hbefore := hmid hheader
    refine hmarked.congr hadvance.eq_of_error ?_
    rw [mark_failed_coins_tip]
    exact hbefore
  | @connect idx mid e coins_tip hheader _ _ _ hconnect =>
    have hbest := connect_block_best_block env block ((mid.receive_data block idx).entry idx).height
      (mid.receive_data block idx).coins_tip (mid.receive_data block idx).params.consensus
      (some ((mid.receive_data block idx).mtp_lookup block.header.time.toNat))
      ((mid.receive_data block idx).should_skip_scripts idx)
    unfold connect_new_block at hconnect
    rw [hconnect] at hbest
    have hbefore := hmid hheader
    refine hmarked.congr hadvance.eq_of_error ?_
    rw [mark_failed_coins_tip]
    exact hbest.trans hbefore
  | @activate idx mid after undo coins_tip result hheader hknown hcheck hcontext hconnect hactivate =>
    obtain ⟨hreceived, hreceived_hashes, hlt, _⟩ := hheaded.received env hheader
    have hreach : self.at_connect env block now = some (idx, mid.receive_data block idx) :=
      (at_connect_eq_some env).mpr ⟨mid, hheader, hknown, hcheck, hcontext, rfl⟩
    obtain ⟨_, hchain, _⟩ := at_connect_frame env hreach
    obtain ⟨tip, hpath, _⟩ := hreceived.tip
    have htip := tip_of_path hpath
    by_cases hmore : ((mid.receive_data block idx).entry tip).chain_work <
        ((mid.receive_data block idx).entry idx).chain_work
    · have hparent := hclimbs idx _ undo coins_tip tip hreach hconnect (hchain ▸ htip) hmore
      obtain ⟨hrun, _, _, hafter_hashes⟩ := hreceived.activate_child env block_reader coins_tip htip hparent hmore
      rw [hrun] at hactivate
      cases hactivate
      have hhash : (((mid.receive_data block idx).connected idx coins_tip).entry idx).block_hash =
          ((mid.receive_data block idx).entry idx).block_hash :=
        ((mid.receive_data block idx).connected_frame idx coins_tip).1.block_hash idx
      unfold Marked
      rw [hafter_hashes, List.getLast?_concat]
      exact congrArg some hhash.symm
    · obtain ⟨hrun, _, hafter_hashes⟩ := hreceived.activate_stays env block_reader coins_tip htip hlt hmore
      rw [hrun] at hactivate
      cases hactivate
      have hbest := connect_block_best_block env block ((mid.receive_data block idx).entry idx).height
        (mid.receive_data block idx).coins_tip (mid.receive_data block idx).params.consensus
        (some ((mid.receive_data block idx).mtp_lookup block.header.time.toNat))
        ((mid.receive_data block idx).should_skip_scripts idx)
      unfold connect_new_block at hconnect
      rw [hconnect] at hbest
      have hbefore := hmid hheader
      refine hmarked.congr (hafter_hashes.trans hreceived_hashes) ?_
      rw [connected_coins_tip]
      exact hbest.trans hbefore

end ChainstateManager

end qubitcoin.chainstate

/-! The transactions that the active chain confirms, and the coins that they have used up. -/

namespace qubitcoin.chainstate

/-- A transaction of a block of a chain. -/
def Confirmed (stored : StoredBlocks) (hashes : List BlockHash) (tx : Transaction) : Prop :=
  ∃ hash ∈ hashes, ∃ block, stored hash = some block ∧ tx ∈ block.vtx

/-- No transaction of the block has the id of a confirmed one. -/
def Anew (stored : StoredBlocks) (hashes : List BlockHash) (block : Block) : Prop :=
  ∀ tx ∈ block.vtx, ∀ old, Confirmed stored hashes old → tx.txid ≠ old.txid

/-- The blocks of a chain are stored. Every coin is an output of a confirmed transaction, and
    every one of these has an input of its own that is such an output and no coin any more. -/
structure Accounted (stored : StoredBlocks) (hashes : List BlockHash) (coins : CoinsMap) : Prop where
  blocks : ∀ hash ∈ hashes, ∃ block, stored hash = some block
  source : ∀ outpoint, (coins outpoint).isSome = true →
    ∃ creator, Confirmed stored hashes creator ∧ creator.txid = outpoint.hash
  spent : ∀ tx, Confirmed stored hashes tx → tx.is_coinbase = false → ∃ input ∈ tx.vin, coins input.prevout = none ∧
    ∃ creator, Confirmed stored hashes creator ∧ creator.txid = input.prevout.hash

theorem store_block_of_not_connected (env : Env) (stored : StoredBlocks) (block : Block)
    {result : Except (Failure BlockValidationState) (Bool × Option BlockUndo)}
    (hresult : ∀ accepted undo, result ≠ .ok (accepted, some undo)) : store_block env stored block result = stored := by
  unfold store_block
  split
  · next accepted undo => exact absurd rfl (hresult accepted undo)
  · rfl

section

variable {stored : StoredBlocks} {hashes : List BlockHash} {block : Block}

theorem confirmed_concat {hash : BlockHash} (hnew : hash ∉ hashes) {tx : Transaction} :
    Confirmed (Function.update stored hash (some block)) (hashes ++ [hash]) tx ↔
      Confirmed stored hashes tx ∨ tx ∈ block.vtx := by
  have hkept : ∀ other ∈ hashes, Function.update stored hash (some block) other = stored other :=
    fun other hother => Function.update_of_ne (ne_of_mem_of_not_mem hother hnew) _ _
  constructor
  · rintro ⟨other, hother, found, hfound, htx⟩
    obtain hold | hlast := List.mem_append.mp hother
    · rw [hkept other hold] at hfound
      exact .inl ⟨other, hold, found, hfound, htx⟩
    · rw [List.mem_singleton.mp hlast, Function.update_self] at hfound
      cases hfound
      exact .inr htx
  · rintro (⟨other, hother, found, hfound, htx⟩ | htx)
    · exact ⟨other, List.mem_append_left [hash] hother, found, (hkept other hother).trans hfound, htx⟩
    · exact ⟨hash, List.mem_append_right hashes (List.mem_singleton_self hash), block, Function.update_self .., htx⟩

theorem Accounted.unissued {coins : CoinsMap} (haccounted : Accounted stored hashes coins)
    (hanew : Anew stored hashes block) : Unissued coins block.vtx := by
  intro outpoint hsome tx htx
  obtain ⟨creator, hcreator, hhash⟩ := haccounted.source outpoint hsome
  rw [← hhash]
  exact hanew tx htx creator hcreator

theorem Accounted.append {coins : CoinsMap} (haccounted : Accounted stored hashes coins)
    (hanew : Anew stored hashes block) (hblock : CheckedBlock block) {hash : BlockHash} (hnew : hash ∉ hashes)
    {height : UInt32} {after : CoinsMap} (happlied : after = coins.apply_txs height block.vtx)
    (hinputs : ∀ tx ∈ block.vtx, tx.is_coinbase = false → ∀ input ∈ tx.vin, after input.prevout = none ∧
      ((coins input.prevout).isSome = true ∨ ∃ creator ∈ block.vtx, creator.txid = input.prevout.hash)) :
    Accounted (Function.update stored hash (some block)) (hashes ++ [hash]) after where
  blocks other hother := by
    obtain hold | hlast := List.mem_append.mp hother
    · obtain ⟨found, hfound⟩ := haccounted.blocks other hold
      exact ⟨found, (Function.update_of_ne (ne_of_mem_of_not_mem hold hnew) _ _).trans hfound⟩
    · rw [List.mem_singleton.mp hlast, Function.update_self]
      exact ⟨block, rfl⟩
  source outpoint hsome := by
    rw [happlied] at hsome
    obtain hcoin | ⟨creator, hcreator, hhash⟩ := apply_txs_source hsome
    · obtain ⟨creator, hcreator, hhash⟩ := haccounted.source outpoint hcoin
      exact ⟨creator, (confirmed_concat hnew).mpr (.inl hcreator), hhash⟩
    · exact ⟨creator, (confirmed_concat hnew).mpr (.inr hcreator), hhash⟩
  spent tx hconfirmed hcoinbase := by
    obtain hold | htx := (confirmed_concat hnew).mp hconfirmed
    · obtain ⟨input, hinput, hnone, creator, hcreator, hhash⟩ := haccounted.spent tx hold hcoinbase
      refine ⟨input, hinput, ?_, creator, (confirmed_concat hnew).mpr (.inl hcreator), hhash⟩
      rw [happlied]
      exact apply_txs_free (fun other hother => hhash ▸ hanew other hother creator hcreator) hnone
    · obtain ⟨input, hinput⟩ := List.exists_mem_of_ne_nil _ (hblock.checked tx htx).vin_nonempty
      obtain ⟨hnone, hsource⟩ := hinputs tx htx hcoinbase input hinput
      refine ⟨input, hinput, hnone, ?_⟩
      obtain hcoin | ⟨creator, hcreator, hhash⟩ := hsource
      · obtain ⟨creator, hcreator, hhash⟩ := haccounted.source input.prevout hcoin
        exact ⟨creator, (confirmed_concat hnew).mpr (.inl hcreator), hhash⟩
      · exact ⟨creator, (confirmed_concat hnew).mpr (.inr hcreator), hhash⟩

end

namespace ChainstateManager

variable {self : ChainstateManager} {stored : StoredBlocks} (env : Env)

/-- What a step that extends the tip does to the chain and its coins: nothing, or a block is
    connected to them and appended. -/
inductive TipStep (self : ChainstateManager) (block : Block) (now : Int) :
    Except (Failure BlockValidationState) (Bool × Option BlockUndo) → ChainstateManager → Prop where
  | stays {result : Except (Failure BlockValidationState) (Bool × Option BlockUndo)} {after : ChainstateManager}
      (hresult : ∀ accepted undo, result ≠ .ok (accepted, some undo))
      (hhashes : after.active_hashes = self.active_hashes)
      (hvisible : after.coins_tip.visible = self.coins_tip.visible) : TipStep self block now result after
  | appends {idx : Nat} {mid after : ChainstateManager} {undo : BlockUndo} {coins_tip : CoinsViewCache}
      (hreach : self.at_connect env block now = some (idx, mid)) (hblock : CheckedBlock block)
      (hconnect : mid.connect_new_block env block idx = (.ok undo, coins_tip))
      (hnew : block.block_hash env.hash256 ∉ self.active_hashes)
      (hhashes : after.active_hashes = self.active_hashes ++ [block.block_hash env.hash256])
      (hvisible : after.coins_tip.visible = coins_tip.visible) : TipStep self block now (.ok (true, some undo)) after

theorem Replayed.tip_step (hreplayed : self.Replayed stored) {block : Block} {now : Int} (block_reader : BlockReader)
    (hunshadowed : (self.at_connect env block now).isSome = true → Unshadowed self.coins_tip block.vtx)
    (hextends : self.ExtendsTip env block now) :
    TipStep env self block now (self.process_new_block env block now block_reader).1
      (self.process_new_block env block now block_reader).2 := by
  obtain ⟨hafter, _⟩ := hreplayed.process_new_block env block_reader hunshadowed hextends
  obtain ⟨_, hadvance⟩ := hreplayed.headed.process_new_block env block_reader (hextends.climbs env)
  have hprocessed := self.process_new_block_processed env block now block_reader
  generalize (self.process_new_block env block now block_reader).1 = result at hafter hadvance hprocessed ⊢
  generalize (self.process_new_block env block now block_reader).2 = after at hafter hadvance hprocessed ⊢
  -- Without a connection the store and the chain are the same, and so is their replay.
  have hstays : (∀ accepted undo, result ≠ .ok (accepted, some undo)) → after.active_hashes = self.active_hashes →
      TipStep env self block now result after := by
    intro hresult hhashes
    refine .stays hresult hhashes ?_
    have hcoins := hafter.coins
    rw [store_block_of_not_connected env stored block hresult, hhashes, hreplayed.coins] at hcoins
    exact (Option.some.inj hcoins).symm
  cases hprocessed with
  | header _ => exact hstays nofun hadvance.eq_of_error
  | known _ _ => exact hstays (fun _ _ heq => by cases heq) hadvance.eq_of_known
  | body _ _ _ => exact hstays nofun hadvance.eq_of_error
  | context _ _ _ _ => exact hstays nofun hadvance.eq_of_error
  | connect _ _ _ _ _ => exact hstays nofun hadvance.eq_of_error
  | @activate idx mid after undo coins_tip result hheader hknown hcheck hcontext hconnect hactivate =>
    obtain ⟨hreceived, hreceived_hashes, _, hhash⟩ := hreplayed.headed.received env hheader
    have hreach : self.at_connect env block now = some (idx, mid.receive_data block idx) :=
      (at_connect_eq_some env).mpr ⟨mid, hheader, hknown, hcheck, hcontext, rfl⟩
    obtain ⟨_, hchain, _⟩ := at_connect_frame env hreach
    have hstep := hextends idx _ hreach
    rw [hconnect] at hstep
    obtain ⟨tip, htip, hparent, hmore⟩ := hstep
    obtain ⟨hrun, _, hafter_tip, hhashes⟩ :=
      hreceived.activate_child env block_reader coins_tip (hchain ▸ htip) hparent hmore
    obtain ⟨other, hpath, _⟩ := hreceived.tip
    obtain rfl : other = tip := Option.some.inj ((tip_of_path hpath).symm.trans (hchain ▸ htip))
    have hnew := hreceived.child_hash_not_mem hpath hparent
    rw [hreceived_hashes, hhash] at hnew hhashes
    rw [hrun] at hactivate
    cases hactivate
    change TipStep env self block now (.ok (decide _, some undo)) _
    rw [decide_eq_true hafter_tip]
    refine .appends hreach (check_block_ok env hcheck) hconnect hnew hhashes ?_
    rw [reset_active_chain_to_visible, connected_coins_tip]

theorem Replayed.accounted (hreplayed : self.Replayed stored)
    (haccounted : Accounted stored self.active_hashes self.coins_tip.visible) {block : Block} {now : Int}
    (hanew : (self.at_connect env block now).isSome = true → Anew stored self.active_hashes block)
    {result : Except (Failure BlockValidationState) (Bool × Option BlockUndo)} {after : ChainstateManager}
    (hstep : TipStep env self block now result after) :
    Accounted (store_block env stored block result) after.active_hashes after.coins_tip.visible := by
  cases hstep with
  | stays hresult hhashes hvisible =>
    rw [store_block_of_not_connected env stored block hresult, hhashes, hvisible]
    exact haccounted
  | @appends idx mid _ undo coins_tip hreach hblock hconnect hnew hhashes hvisible =>
    have hanew := hanew (by rw [hreach]; rfl)
    obtain ⟨_, _, hcoins, _⟩ := at_connect_frame env hreach
    unfold connect_new_block at hconnect
    rw [hcoins] at hconnect
    obtain ⟨happlied, hinputs⟩ :=
      connect_block_inputs env hblock hreplayed.coherent (haccounted.unissued hanew) hconnect
    rw [hhashes, hvisible]
    exact haccounted.append hanew hblock hnew happlied hinputs

end ChainstateManager

open ChainstateManager

theorem FromGenesis.accounted (env : Env) {params : ChainParams} {base : CoinsViewDB} {start : ChainstateManager}
    (hempty : ∀ outpoint, base.get_coin outpoint = none) (hstart : FromGenesis env params base start) :
    Accounted (genesis_store env params) start.active_hashes start.coins_tip.visible := by
  obtain ⟨hreplayed, _⟩ := FromGenesis.replayed env hempty hstart
  have hcoins := hreplayed.coins
  have hhashes : start.active_hashes = [] ++ [(params.create_genesis_block env.hash256).block_hash env.hash256] := by
    obtain ⟨coins_tip, _, rfl⟩ := load_genesis_block_new env hstart
    rfl
  rw [hhashes] at hcoins ⊢
  rw [replay_concat] at hcoins
  unfold apply_block genesis_store at hcoins
  rw [Function.update_self] at hcoins
  have happlied := (Option.some.inj hcoins).symm
  have hconfirmed : ∀ {tx}, Confirmed (genesis_store env params)
      ([] ++ [(params.create_genesis_block env.hash256).block_hash env.hash256]) tx ↔
        Confirmed (fun _ => none) [] tx ∨ tx ∈ (params.create_genesis_block env.hash256).vtx :=
    confirmed_concat List.not_mem_nil
  refine ⟨fun hash hhash => ?_, fun outpoint hsome => ?_, fun tx htx hcoinbase => ?_⟩
  · rw [List.nil_append] at hhash
    rw [List.mem_singleton.mp hhash]
    exact ⟨_, Function.update_self ..⟩
  · rw [happlied] at hsome
    obtain hcoin | ⟨creator, hcreator, hhash⟩ := apply_txs_source hsome
    · cases hcoin
    · exact ⟨creator, hconfirmed.mpr (.inr hcreator), hhash⟩
  · obtain ⟨_, hnone, _⟩ | hmem := hconfirmed.mp htx
    · cases hnone
    · obtain rfl := List.mem_singleton.mp hmem
      cases hcoinbase

end qubitcoin.chainstate
