import Qubitcoin.Coins.View
import Qubitcoin.Validation.Connect

/-! What every call of a coins view keeps, connecting a block and disconnecting it keep too. -/

open qubitcoin primitives transaction block coins params validation_state qubitcoin.validation

namespace qubitcoin.coins

/-- A property of coins views that is kept when a coin of the base is cached, a coin is added
    and a cached one is spent. -/
structure KeptByCalls (P : CoinsViewCache → Prop) : Prop where
  cache_clean : ∀ {view : CoinsViewCache} {outpoint : OutPoint} {coin : Coin}, P view →
    view.base.get_coin outpoint = some coin → P (view.cache_clean outpoint coin)
  add_coin : ∀ {view after : CoinsViewCache} {outpoint : OutPoint} {coin : Coin} {possible_overwrite : Bool}, P view →
    view.add_coin outpoint coin possible_overwrite = .ok after → P after
  spend_cached : ∀ {view : CoinsViewCache} (outpoint : OutPoint), P view → P (view.spend_cached outpoint).2

namespace KeptByCalls

variable {P : CoinsViewCache → Prop} (hkept : KeptByCalls P)
include hkept

theorem fetch_coin {view : CoinsViewCache} (hview : P view) (outpoint : OutPoint) : P (view.fetch_coin outpoint).2 := by
  unfold CoinsViewCache.fetch_coin
  split
  · split <;> exact hview
  · split
    · next coin hbase =>
      split
      · exact hview
      · exact hkept.cache_clean hview hbase
    · exact hview

theorem spend_coin {view : CoinsViewCache} (hview : P view) (outpoint : OutPoint) : P (view.spend_coin outpoint).2 :=
  hkept.spend_cached outpoint (hkept.fetch_coin hview outpoint)

theorem insert_fetched (entries : List (OutPoint × Option Coin)) : ∀ {view : CoinsViewCache}, P view →
    (∀ entry ∈ entries, view.base.get_coin entry.1 = entry.2) → P (view.insert_fetched entries) := by
  induction entries with
  | nil => exact fun hview _ => hview
  | cons entry rest ih =>
    obtain ⟨outpoint, maybe_coin⟩ := entry
    intro view hview hread
    have hrest : ∀ entry ∈ rest, view.base.get_coin entry.1 = entry.2 :=
      fun entry hmem => hread entry (List.mem_cons_of_mem _ hmem)
    unfold CoinsViewCache.insert_fetched
    split
    · next coin _ =>
      have hbase : view.base.get_coin outpoint = some coin := hread (outpoint, some coin) List.mem_cons_self
      split
      · exact ih hview hrest
      · exact ih (hkept.cache_clean hview hbase) hrest
    · exact ih hview hrest

theorem prefetch_coins {view : CoinsViewCache} (hview : P view) (outpoints : List OutPoint) :
    P (view.prefetch_coins outpoints) :=
  hkept.insert_fetched _ hview fun _ hmem => CoinsViewDB.mem_zip_get_coins hmem

theorem add_outputs {height : UInt32} {is_coinbase check_for_overwrite : Bool} {outputs : List (OutPoint × TxOut)} :
    ∀ {view after : CoinsViewCache}, P view →
      coins.add_outputs height is_coinbase check_for_overwrite outputs view = .ok after → P after := by
  induction outputs with
  | nil =>
    intro view after hview hadd
    cases hadd
    exact hview
  | cons entry rest ih =>
    obtain ⟨outpoint, output⟩ := entry
    intro view after hview hadd
    unfold coins.add_outputs at hadd
    cases check_for_overwrite with
    | false =>
      obtain ⟨mid, hmid, hrest⟩ := bind_eq_ok_iff.mp hadd
      exact ih (hkept.add_coin hview hmid) hrest
    | true =>
      obtain ⟨mid, hmid, hrest⟩ := bind_eq_ok_iff.mp hadd
      exact ih (hkept.add_coin (hkept.fetch_coin hview outpoint) hmid) hrest

theorem add_coins {tx : Transaction} {height : UInt32} {check_for_overwrite : Bool} {view after : CoinsViewCache}
    (hview : P view) (hadd : coins.add_coins view tx height check_for_overwrite = .ok after) : P after :=
  hkept.add_outputs hview hadd

theorem have_any_coin (outpoints : List OutPoint) : ∀ {view : CoinsViewCache}, P view →
    P (validation.have_any_coin outpoints view).2 := by
  induction outpoints with
  | nil => exact fun hview => hview
  | cons outpoint rest ih =>
    intro view hview
    have hfetch := hkept.fetch_coin hview outpoint
    unfold validation.have_any_coin CoinsViewCache.have_coin
    dsimp only
    split
    · exact hfetch
    · exact ih hfetch

theorem fetch_inputs (inputs : List TxIn) : ∀ {view : CoinsViewCache}, P view →
    P (validation.fetch_inputs inputs view).2 := by
  induction inputs with
  | nil => exact fun hview => hview
  | cons input rest ih => exact fun hview => ih (hkept.fetch_coin hview input.prevout)

theorem spend_inputs (inputs : List TxIn) : ∀ {view : CoinsViewCache}, P view →
    P (validation.spend_inputs inputs view) := by
  induction inputs with
  | nil => exact fun hview => hview
  | cons input rest ih => exact fun hview => ih (hkept.spend_coin hview input.prevout)

theorem connect_tx (ctx : ConnectContext) (tx : Transaction) (totals : ConnectTotals) {view : CoinsViewCache}
    (hview : P view) : P (validation.connect_tx ctx tx totals view).2 := by
  unfold validation.connect_tx
  have hfetch : P (if tx.is_coinbase then ([], view) else validation.fetch_inputs tx.vin view).2 := by
    split
    · exact hview
    · exact hkept.fetch_inputs tx.vin hview
  generalize (if tx.is_coinbase then ([], view) else validation.fetch_inputs tx.vin view) = fetched at hfetch ⊢
  obtain ⟨input_coins, read⟩ := fetched
  dsimp only at hfetch ⊢
  split
  · exact hfetch
  · have hspend : P (if tx.is_coinbase then read else validation.spend_inputs tx.vin read) := by
      split
      · exact hfetch
      · exact hkept.spend_inputs tx.vin hfetch
    split
    · exact hspend
    · next hadd => exact hkept.add_coins hspend hadd

theorem connect_txs (ctx : ConnectContext) (txs : List Transaction) : ∀ (totals : ConnectTotals)
    {view : CoinsViewCache}, P view → P (validation.connect_txs ctx txs totals view).2 := by
  induction txs with
  | nil => exact fun _ {_} hview => hview
  | cons tx rest ih =>
    intro totals view hview
    have hfirst := hkept.connect_tx ctx tx totals hview
    unfold validation.connect_txs
    split
    · next heq =>
      rw [heq] at hfirst
      exact hfirst
    · next after_totals undo mid heq =>
      rw [heq] at hfirst
      have hrest := ih after_totals hfirst
      split
      · next hloop =>
        rw [hloop] at hrest
        exact hrest
      · next hloop =>
        rw [hloop] at hrest
        exact hrest

theorem check_bip30 (env : Env) (block : Block) (height : Int) (params : ConsensusParams) {view : CoinsViewCache}
    (hview : P view) : P (validation.check_bip30 env block height params view).2 := by
  unfold validation.check_bip30
  split
  · exact hkept.have_any_coin _ hview
  · exact hview

theorem connect_block (env : Env) (block : Block) (height : Int) {view : CoinsViewCache} (params : ConsensusParams)
    (mtp_at_height : Option (Int → Int)) (skip_scripts : Bool) (hview : P view) :
    P (validation.connect_block env block height view params mtp_at_height skip_scripts).2 := by
  have hbip30 := hkept.check_bip30 env block height params hview
  unfold validation.connect_block
  split
  · next heq =>
    rw [heq] at hbip30
    exact hbip30
  · next read heq =>
    rw [heq] at hbip30
    have hloop := hkept.connect_txs (connect_context env block height params mtp_at_height) block.vtx ⟨0, 0⟩
      (hkept.prefetch_coins hbip30 (all_input_outpoints block.vtx))
    dsimp only
    split
    · next hconnect =>
      rw [hconnect] at hloop
      exact hloop
    · next hconnect =>
      rw [hconnect] at hloop
      split
      · exact hloop
      · exact hloop

theorem apply_tx_in_undo {undo_coin : Coin} {view after : CoinsViewCache} {outpoint : OutPoint}
    {result : DisconnectResult} (hview : P view)
    (hundo : validation.apply_tx_in_undo undo_coin view outpoint = .ok (result, after)) : P after := by
  have hfetch := hkept.fetch_coin hview outpoint
  unfold validation.apply_tx_in_undo CoinsViewCache.have_coin at hundo
  dsimp only at hundo
  split at hundo
  · cases hundo
    exact hfetch
  · split at hundo
    · cases hundo
    · next hadd =>
      cases hundo
      exact hkept.add_coin hfetch hadd

theorem remove_outputs (height : UInt32) (is_coinbase : Bool) (outputs : List (OutPoint × TxOut)) :
    ∀ {view : CoinsViewCache}, P view → P (validation.remove_outputs height is_coinbase outputs view).2 := by
  induction outputs with
  | nil => exact fun hview => hview
  | cons entry rest ih =>
    obtain ⟨outpoint, output⟩ := entry
    intro view hview
    unfold validation.remove_outputs
    split
    · exact ih hview
    · exact ih (hkept.spend_coin hview outpoint)

theorem restore_inputs {pairs : List (TxIn × Coin)} : ∀ {view after : CoinsViewCache} {result : Option Bool}, P view →
    validation.restore_inputs pairs view = .ok (result, after) → P after := by
  induction pairs with
  | nil =>
    intro view after result hview hrestore
    cases hrestore
    exact hview
  | cons pair rest ih =>
    obtain ⟨input, undo_coin⟩ := pair
    intro view after result hview hrestore
    unfold validation.restore_inputs at hrestore
    obtain ⟨⟨undone, mid⟩, hundo, hrestore⟩ := bind_eq_ok_iff.mp hrestore
    have hmid := hkept.apply_tx_in_undo hview hundo
    dsimp only at hrestore
    split at hrestore
    · cases hrestore
      exact hmid
    · obtain ⟨⟨clean, restored⟩, hrest, hrestore⟩ := bind_eq_ok_iff.mp hrestore
      cases hrestore
      exact ih hmid hrest

theorem disconnect_tx {undo : List TxUndo} {height : UInt32} {tx : Transaction} {tx_index : Nat}
    {view after : CoinsViewCache} {result : Option Bool} (hview : P view)
    (hundo : validation.disconnect_tx undo height tx tx_index view = .ok (result, after)) : P after := by
  have hremoved := hkept.remove_outputs height tx.is_coinbase (outpoints tx) hview
  unfold validation.disconnect_tx at hundo
  dsimp only at hundo
  split at hundo
  · cases hundo
    exact hremoved
  · split at hundo
    · cases hundo
    · split at hundo
      · cases hundo
      · split at hundo
        · cases hundo
          exact hremoved
        · obtain ⟨⟨restored, after_restore⟩, hrestore, hundo⟩ := bind_eq_ok_iff.mp hundo
          cases hundo
          exact hkept.restore_inputs hremoved hrestore

theorem disconnect_txs {undo : List TxUndo} {height : UInt32} {txs : List (Transaction × Nat)} :
    ∀ {view after : CoinsViewCache} {result : Option Bool}, P view →
      validation.disconnect_txs undo height txs view = .ok (result, after) → P after := by
  induction txs with
  | nil =>
    intro view after result hview hundo
    cases hundo
    exact hview
  | cons entry rest ih =>
    obtain ⟨tx, tx_index⟩ := entry
    intro view after result hview hundo
    unfold validation.disconnect_txs at hundo
    obtain ⟨⟨first, mid⟩, hfirst, hundo⟩ := bind_eq_ok_iff.mp hundo
    have hmid := hkept.disconnect_tx hview hfirst
    cases first with
    | none =>
      cases hundo
      exact hmid
    | some first =>
      obtain ⟨⟨clean, undone⟩, hrest, hundo⟩ := bind_eq_ok_iff.mp hundo
      cases hundo
      exact ih hmid hrest

theorem disconnect_block {block : Block} {height : Int} {view after : CoinsViewCache} {undo : BlockUndo}
    {result : DisconnectResult} (hview : P view)
    (hundo : validation.disconnect_block block height view undo = .ok (result, after)) : P after := by
  unfold validation.disconnect_block at hundo
  split at hundo
  · cases hundo
    exact hview
  · obtain ⟨⟨clean, undone⟩, hloop, hundo⟩ := bind_eq_ok_iff.mp hundo
    cases hundo
    exact hkept.disconnect_txs hview hloop

end KeptByCalls

end qubitcoin.coins
