import Qubitcoin.Validation.ConnectSpec

/-! Disconnecting a block takes the visible coins back to where they were before
    it was connected. -/

open qubitcoin primitives script transaction block coins params check validation_state

namespace qubitcoin.validation

/-- No coin of the map is unspendable. -/
def Spendable (coins : CoinsMap) : Prop :=
  ∀ outpoint coin, coins outpoint = some coin → coin.tx_out.script_pubkey.is_unspendable = false

def spendable_outpoints (outputs : List (OutPoint × TxOut)) : List OutPoint :=
  (outputs.filter fun entry => !entry.2.script_pubkey.is_unspendable).map Prod.fst

theorem remove_outputs_removes (height : UInt32) (is_coinbase : Bool) (outputs : List (OutPoint × TxOut)) :
    ∀ {view : CoinsViewCache}, view.Coherent →
      (remove_outputs height is_coinbase outputs view).2.visible =
          view.visible.spend_all (spendable_outpoints outputs) ∧
        (remove_outputs height is_coinbase outputs view).2.Coherent := by
  induction outputs with
  | nil => exact fun {view} hcoherent => ⟨rfl, hcoherent⟩
  | cons entry rest ih =>
    obtain ⟨outpoint, output⟩ := entry
    intro view hcoherent
    unfold remove_outputs spendable_outpoints
    cases hunspendable : output.script_pubkey.is_unspendable with
    | true =>
      simp only [if_true, List.filter_cons, hunspendable, Bool.not_true, Bool.false_eq_true, if_false]
      exact ih hcoherent
    | false =>
      obtain ⟨hspent, hafter⟩ := hcoherent.spend_coin outpoint
      obtain ⟨hremoved, hrest⟩ := ih hafter
      simp only [Bool.false_eq_true, if_false, List.filter_cons, hunspendable, Bool.not_false, if_true,
        List.map_cons, CoinsMap.spend_all]
      exact ⟨hremoved.trans (by rw [hspent]; rfl), hrest⟩

theorem remove_outputs_clean {height : UInt32} {is_coinbase : Bool} {outputs : List (OutPoint × TxOut)}
    (hnodup : (outputs.map Prod.fst).Nodup) :
    ∀ {view : CoinsViewCache}, view.Coherent →
      (∀ entry ∈ outputs, entry.2.script_pubkey.is_unspendable = false →
        view.visible entry.1 = some ⟨entry.2, height, is_coinbase⟩) →
      (remove_outputs height is_coinbase outputs view).1 = true := by
  induction outputs with
  | nil => exact fun _ _ => rfl
  | cons entry rest ih =>
    obtain ⟨outpoint, output⟩ := entry
    rw [List.map_cons, List.nodup_cons] at hnodup
    intro view hcoherent hvisible
    have hrest : ∀ entry ∈ rest, entry.2.script_pubkey.is_unspendable = false →
        view.visible entry.1 = some ⟨entry.2, height, is_coinbase⟩ :=
      fun entry hmem => hvisible entry (List.mem_cons_of_mem _ hmem)
    unfold remove_outputs
    cases hunspendable : output.script_pubkey.is_unspendable with
    | true =>
      rw [if_pos rfl]
      exact ih hnodup.2 hcoherent hrest
    | false =>
      obtain ⟨hspent, hafter⟩ := hcoherent.spend_coin outpoint
      have hcoin := hvisible (outpoint, output) (by simp) hunspendable
      have hkeep : ∀ entry ∈ rest, entry.2.script_pubkey.is_unspendable = false →
          (view.spend_coin outpoint).2.visible entry.1 = some ⟨entry.2, height, is_coinbase⟩ := by
        intro entry hmem hspendable
        have hne : entry.1 ≠ outpoint := fun heq => hnodup.1 (List.mem_map.mpr ⟨entry, hmem, heq⟩)
        rw [hspent, Function.update_of_ne hne]
        exact hrest entry hmem hspendable
      have hresult := (view.spend_coin_result outpoint).trans hcoin
      simp only [Bool.false_eq_true, if_false, hresult, ih hnodup.2 hafter hkeep]
      simp

theorem apply_tx_in_undo_spec {view : CoinsViewCache} (hcoherent : view.Coherent) {outpoint : OutPoint}
    {coin : Coin} (hfree : view.visible outpoint = none) (hspent : coin.is_spent = false)
    (hspendable : coin.tx_out.script_pubkey.is_unspendable = false) :
    ∃ after, apply_tx_in_undo coin view outpoint = .ok (.Ok, after) ∧
      after.visible = Function.update view.visible outpoint (some coin) ∧ after.Coherent := by
  have hreads := view.fetch_coin_reads outpoint
  have hfetched : (view.fetch_coin outpoint).1 = none := hfree
  have hadd : ∃ after, (view.fetch_coin outpoint).2.add_coin outpoint coin false = .ok after := by
    unfold CoinsViewCache.add_coin
    rw [if_neg (by simp [hspent]), if_neg (by simp [hspendable])]
    split
    · next existing hcache =>
      have hshown := CoinsViewCache.visible_of_cached hcache
      rw [hreads.visible, hfree] at hshown
      have hexisting : existing.coin.is_spent = true := by
        unfold CoinsCacheEntry.shown at hshown
        split at hshown
        · next h => exact h
        · cases hshown
      rw [if_neg (by simp [hexisting])]
      exact ⟨_, rfl⟩
    · exact ⟨_, rfl⟩
  obtain ⟨after, hafter⟩ := hadd
  refine ⟨after, ?_, ?_, ?_⟩
  · unfold apply_tx_in_undo CoinsViewCache.have_coin
    simp only [hfetched, Option.isSome_none, hspent, Bool.false_eq_true, if_false, hafter]
  · rw [(CoinsViewCache.add_coin_visible hafter).1, if_neg (by simp [hspendable]), hreads.visible]
  · refine (hreads.coherent hcoherent).add_coin hafter fun _ => ?_
    exact hreads.sees_parent (CoinsViewCache.sees_parent_of_not_visible hfree)

theorem restore_inputs_spec {pairs : List (TxIn × Coin)}
    (hnodup : (pairs.map fun pair => pair.1.prevout).Nodup) :
    ∀ {view : CoinsViewCache}, view.Coherent →
      (∀ pair ∈ pairs, view.visible pair.1.prevout = none ∧ pair.2.is_spent = false ∧
        pair.2.tx_out.script_pubkey.is_unspendable = false) →
      ∃ after, restore_inputs pairs view = .ok (some true, after) ∧ after.Coherent ∧
        (∀ pair ∈ pairs, after.visible pair.1.prevout = some pair.2) ∧
        ∀ query, (∀ pair ∈ pairs, pair.1.prevout ≠ query) → after.visible query = view.visible query := by
  induction pairs with
  | nil => exact fun {view} hcoherent _ => ⟨view, rfl, hcoherent, by simp, fun _ _ => rfl⟩
  | cons pair rest ih =>
    obtain ⟨input, coin⟩ := pair
    rw [List.map_cons, List.nodup_cons] at hnodup
    intro view hcoherent hpairs
    obtain ⟨hfree, hspent, hspendable⟩ := hpairs (input, coin) (by simp)
    obtain ⟨mid, hmid, hvisible, hmid_coherent⟩ := apply_tx_in_undo_spec hcoherent hfree hspent hspendable
    have hne : ∀ pair ∈ rest, pair.1.prevout ≠ input.prevout :=
      fun pair hmem heq => hnodup.1 (List.mem_map.mpr ⟨pair, hmem, heq⟩)
    have hrest : ∀ pair ∈ rest, mid.visible pair.1.prevout = none ∧ pair.2.is_spent = false ∧
        pair.2.tx_out.script_pubkey.is_unspendable = false := by
      intro pair hmem
      rw [hvisible, Function.update_of_ne (hne pair hmem)]
      exact hpairs pair (List.mem_cons_of_mem _ hmem)
    obtain ⟨after, hafter, hafter_coherent, hrestored, hother⟩ := ih hnodup.2 hmid_coherent hrest
    refine ⟨after, ?_, hafter_coherent, ?_, ?_⟩
    · unfold restore_inputs
      rw [hmid]
      simp only [bind, Except.bind, reduceCtorEq, if_false, hafter, Option.map_some, decide_true, Bool.true_and]
    · intro pair hmem
      rcases List.mem_cons.mp hmem with rfl | hmem
      · rw [hother _ hne, hvisible]
        exact Function.update_self ..
      · exact hrestored pair hmem
    · intro query hquery
      rw [hother query fun pair hmem => hquery pair (List.mem_cons_of_mem _ hmem), hvisible]
      exact Function.update_of_ne (hquery (input, coin) (by simp)).symm _ _

theorem spent_coins_of_check {ctx : ConnectContext} {tx : Transaction} {totals after : ConnectTotals}
    {coins : CoinsMap} (hcoinbase : tx.is_coinbase = false)
    (hcheck : check_connect_tx ctx tx (input_coins coins tx) totals = .ok after) :
    ∃ spent : List Coin, tx_undo tx (input_coins coins tx) = [⟨spent⟩] ∧ spent.length = tx.vin.length ∧
      ∀ pair ∈ tx.vin.zip spent, coins pair.1.prevout = some pair.2 ∧ pair.2.is_spent = false := by
  obtain ⟨spent, _, hfetched, hunspent, _⟩ := check_connect_tx_ok hcoinbase hcheck
  have hmap : (tx.vin.map fun input => coins input.prevout) = spent.map some := by
    simpa [input_coins, hcoinbase] using hfetched
  refine ⟨spent, ?_, ?_, ?_⟩
  · unfold tx_undo
    rw [hcoinbase, if_neg (by simp), hfetched]
    simp [Function.comp_def]
  · simpa using (congrArg List.length hmap).symm
  · intro pair hmem
    obtain ⟨i, hi, hpair⟩ := List.mem_iff_getElem.mp hmem
    simp only [List.length_zip, lt_inf_iff] at hi
    rw [List.getElem_zip] at hpair
    have hat := congrArg (fun list => list[i]?) hmap
    simp only [List.getElem?_map, List.getElem?_eq_getElem hi.1, List.getElem?_eq_getElem hi.2,
      Option.map_some, Option.some.injEq] at hat
    subst hpair
    exact ⟨hat, (hunspent _ (List.getElem_mem hi.2)).1⟩

/-- What is removed and what is restored cancel out: spend the inputs, add the
    outputs to free outpoints, remove the spendable outputs again. -/
theorem spend_all_add_all {height : UInt32} {is_coinbase : Bool} {coins : CoinsMap}
    {outputs : List (OutPoint × TxOut)} (hnodup : (outputs.map Prod.fst).Nodup)
    (hfree : ∀ entry ∈ outputs, coins entry.1 = none) :
    (coins.add_all height is_coinbase outputs).spend_all (spendable_outpoints outputs) = coins := by
  funext query
  rw [CoinsMap.spend_all_apply]
  unfold spendable_outpoints
  by_cases hmem : query ∈ outputs.map Prod.fst
  · obtain ⟨⟨outpoint, output⟩, hentry, rfl⟩ := List.mem_map.mp hmem
    split
    · exact (hfree _ hentry).symm
    · next hnot =>
      rw [CoinsMap.add_all_of_mem hnodup hentry]
      split
      · rfl
      · next hspendable =>
        refine absurd (List.mem_map.mpr ⟨(outpoint, output), ?_, rfl⟩) hnot
        exact List.mem_filter.mpr ⟨hentry, by simpa using hspendable⟩
  · have hnot : query ∉ (outputs.filter fun entry => !entry.2.script_pubkey.is_unspendable).map Prod.fst :=
      fun h => hmem (List.map_subset Prod.fst (List.filter_subset_self _) h)
    rw [if_neg hnot, CoinsMap.add_all_of_not_mem hmem]

/-- Disconnecting one transaction from any coherent view that shows what
    connecting it gave takes the visible map back. -/
theorem disconnect_tx_spec {ctx : ConnectContext} {tx : Transaction} {totals after_totals : ConnectTotals}
    {coins : CoinsMap} (hchecked : Checked tx) (hspendable : Spendable coins)
    (hfree : ∀ entry ∈ outpoints tx, coins entry.1 = none)
    (hcheck : check_connect_tx ctx tx (input_coins coins tx) totals = .ok after_totals)
    {undo : List TxUndo} {tx_index : Nat}
    (hundo : tx.is_coinbase = false → 1 ≤ tx_index ∧
      (tx_undo tx (input_coins coins tx)).head? = undo[tx_index - 1]?)
    {view : CoinsViewCache} (hcoherent : view.Coherent)
    (hvisible : view.visible = coins.apply_tx (as_u32 ctx.height) tx) :
    ∃ restored, disconnect_tx undo (as_u32 ctx.height) tx tx_index view = .ok (some true, restored) ∧
      restored.visible = coins ∧ restored.Coherent := by
  have hnodup := outpoints_nodup hchecked.vout_length
  have hspent_free : ∀ entry ∈ outpoints tx,
      (if tx.is_coinbase then coins else coins.spend_all (tx.vin.map TxIn.prevout)) entry.1 = none := by
    intro entry hmem
    split
    · exact hfree entry hmem
    · rw [CoinsMap.spend_all_apply, hfree entry hmem, ite_self]
  have houtputs : ∀ entry ∈ outpoints tx, entry.2.script_pubkey.is_unspendable = false →
      view.visible entry.1 = some ⟨entry.2, as_u32 ctx.height, tx.is_coinbase⟩ := by
    intro entry hmem hspendable
    rw [hvisible, CoinsMap.apply_tx, CoinsMap.add_all_of_mem hnodup hmem, if_neg (by simp [hspendable])]
  have hclean := remove_outputs_clean hnodup hcoherent houtputs
  obtain ⟨hremoved, hremoved_coherent⟩ := remove_outputs_removes (as_u32 ctx.height) tx.is_coinbase (outpoints tx) hcoherent
  rw [hvisible, CoinsMap.apply_tx, spend_all_add_all hnodup hspent_free] at hremoved
  unfold disconnect_tx
  dsimp only
  rw [hclean]
  cases hcoinbase : tx.is_coinbase with
  | true =>
    simp only [hcoinbase, if_true] at hremoved ⊢
    exact ⟨_, rfl, hremoved, by simpa [hcoinbase] using hremoved_coherent⟩
  | false =>
    obtain ⟨hindex, hrecord⟩ := hundo hcoinbase
    obtain ⟨spent, hspent_eq, hlength, hspent⟩ := spent_coins_of_check hcoinbase hcheck
    rw [hspent_eq, List.head?_cons] at hrecord
    simp only [hcoinbase, Bool.false_eq_true, if_false] at hremoved hremoved_coherent ⊢
    rw [if_neg (by omega), ← hrecord]
    dsimp only
    rw [if_neg (by simpa using hlength)]
    have hprevouts : ((tx.vin.zip spent).map fun pair => pair.1.prevout) = tx.vin.map TxIn.prevout := by
      calc (tx.vin.zip spent).map (fun pair => pair.1.prevout)
          = ((tx.vin.zip spent).map Prod.fst).map TxIn.prevout := (List.map_map ..).symm
        _ = tx.vin.map TxIn.prevout := by rw [List.map_fst_zip hlength.ge]
    have hpairs : ∀ pair ∈ (tx.vin.zip spent).reverse,
        (remove_outputs (as_u32 ctx.height) false (outpoints tx) view).2.visible pair.1.prevout = none ∧
          pair.2.is_spent = false ∧ pair.2.tx_out.script_pubkey.is_unspendable = false := by
      intro pair hmem
      have hmem := List.mem_reverse.mp hmem
      obtain ⟨hcoin, hunspent⟩ := hspent pair hmem
      refine ⟨?_, hunspent, hspendable _ _ hcoin⟩
      rw [hremoved, CoinsMap.spend_all_apply, if_pos]
      exact hprevouts ▸ List.mem_map.mpr ⟨pair, hmem, rfl⟩
    have hreverse : ((tx.vin.zip spent).reverse.map fun pair => pair.1.prevout).Nodup := by
      rw [List.map_reverse, hprevouts]
      exact List.nodup_reverse.mpr hchecked.prevouts_nodup
    obtain ⟨restored, hrestore, hrestored_coherent, hrestored, hother⟩ :=
      restore_inputs_spec hreverse hremoved_coherent hpairs
    refine ⟨restored, ?_, ?_, hrestored_coherent⟩
    · rw [hrestore]
      rfl
    · funext query
      by_cases hquery : ∃ pair ∈ tx.vin.zip spent, pair.1.prevout = query
      · obtain ⟨pair, hmem, rfl⟩ := hquery
        rw [hrestored pair (List.mem_reverse.mpr hmem), (hspent pair hmem).1]
      · rw [hother query fun pair hmem heq => hquery ⟨pair, List.mem_reverse.mp hmem, heq⟩, hremoved,
          CoinsMap.spend_all_apply, if_neg]
        intro hmem
        rw [← hprevouts] at hmem
        obtain ⟨pair, hpair, heq⟩ := List.mem_map.mp hmem
        exact hquery ⟨pair, hpair, heq⟩

theorem Spendable.spend_all {coins : CoinsMap} (hspendable : Spendable coins) (spent : List OutPoint) :
    Spendable (coins.spend_all spent) := by
  intro outpoint coin hcoin
  rw [CoinsMap.spend_all_apply] at hcoin
  split at hcoin
  · cases hcoin
  · exact hspendable outpoint coin hcoin

theorem Spendable.add_all {height : UInt32} {is_coinbase : Bool} {outputs : List (OutPoint × TxOut)} :
    ∀ {coins : CoinsMap}, Spendable coins → Spendable (coins.add_all height is_coinbase outputs) := by
  induction outputs with
  | nil => exact fun hspendable => hspendable
  | cons entry rest ih =>
    obtain ⟨outpoint, output⟩ := entry
    intro coins hspendable
    refine ih ?_
    split
    · exact hspendable
    · next hunspendable =>
      intro query coin hcoin
      rw [Function.update_apply] at hcoin
      split at hcoin
      · cases hcoin
        simpa using hunspendable
      · exact hspendable query coin hcoin

theorem Spendable.apply_tx {height : UInt32} {coins : CoinsMap} (hspendable : Spendable coins)
    (tx : Transaction) : Spendable (coins.apply_tx height tx) := by
  refine Spendable.add_all ?_
  split
  · exact hspendable
  · exact hspendable.spend_all _

theorem disconnect_txs_append {undo : List TxUndo} {height : UInt32} {txs later : List (Transaction × Nat)} {last : Bool} :
    ∀ {first : Bool} {view mid after : CoinsViewCache},
      disconnect_txs undo height txs view = .ok (some first, mid) →
      disconnect_txs undo height later mid = .ok (some last, after) →
      disconnect_txs undo height (txs ++ later) view = .ok (some (first && last), after) := by
  induction txs with
  | nil =>
    intro first view mid after hfirst hlater
    cases hfirst
    exact hlater
  | cons pair rest ih =>
    intro first view mid after hfirst hlater
    unfold disconnect_txs at hfirst
    obtain ⟨⟨result, next⟩, hnext, hfirst⟩ := bind_eq_ok_iff.mp hfirst
    cases result with
    | none => cases hfirst
    | some head =>
      dsimp only at hfirst
      obtain ⟨⟨others, other⟩, hothers, hfirst⟩ := bind_eq_ok_iff.mp hfirst
      cases others with
      | none => cases hfirst
      | some others =>
        cases hfirst
        rw [List.cons_append]
        unfold disconnect_txs
        refine bind_eq_ok_iff.mpr ⟨(some head, next), hnext, ?_⟩
        refine bind_eq_ok_iff.mpr ⟨(some (others && last), after), ih hothers hlater, ?_⟩
        cases head <;> rfl

theorem disconnect_txs_singleton {undo : List TxUndo} {height : UInt32} {tx : Transaction} {tx_index : Nat} {last : Bool}
    {view after : CoinsViewCache} (hlast : disconnect_tx undo height tx tx_index view = .ok (some last, after)) :
    disconnect_txs undo height [(tx, tx_index)] view = .ok (some last, after) := by
  unfold disconnect_txs
  refine bind_eq_ok_iff.mpr ⟨(some last, after), hlast, ?_⟩
  cases last <;> rfl

theorem apply_tx_free {height : UInt32} {coins : CoinsMap} {tx : Transaction} {outpoint : OutPoint}
    (hhash : outpoint.hash ≠ tx.txid) (hfree : coins outpoint = none) :
    coins.apply_tx height tx outpoint = none := by
  have hmem : outpoint ∉ (outpoints tx).map Prod.fst := by
    intro hmem
    obtain ⟨entry, hentry, rfl⟩ := List.mem_map.mp hmem
    exact hhash (outpoints_hash hentry)
  rw [CoinsMap.apply_tx, CoinsMap.add_all_of_not_mem hmem]
  split
  · exact hfree
  · rw [CoinsMap.spend_all_apply, hfree, ite_self]

theorem connect_tx_applied {ctx : ConnectContext} {tx : Transaction} {totals after_totals : ConnectTotals}
    {undo : List TxUndo} {view after : CoinsViewCache} (hcoherent : view.Coherent)
    (hfresh : ∀ outpoint ∈ spendable_outpoints (outpoints tx), view.visible outpoint = none)
    (hconnect : connect_tx ctx tx totals view = (.ok (after_totals, undo), after)) :
    after.visible = view.visible.apply_tx (as_u32 ctx.height) tx ∧ after.Coherent := by
  obtain ⟨hvisible, _, _, hkeep⟩ := connect_tx_ok hcoherent hconnect
  refine ⟨hvisible, hkeep fun entry hmem hspendable => ?_⟩
  refine CoinsViewCache.sees_parent_of_not_visible (hfresh entry.1 ?_)
  exact List.mem_map_of_mem (List.mem_filter.mpr ⟨hmem, by simp [hspendable]⟩)

/-- A transaction that is connected over free outpoints keeps the view coherent
    and the outpoints of the transactions after it free. -/
theorem connect_tx_fresh {ctx : ConnectContext} {tx : Transaction} {rest : List Transaction}
    {totals after_totals : ConnectTotals} {undo : List TxUndo} {view after : CoinsViewCache}
    (hcoherent : view.Coherent) (hnodup : ((tx :: rest).map Transaction.txid).Nodup)
    (hfree : ∀ other ∈ tx :: rest, ∀ entry ∈ outpoints other, view.visible entry.1 = none)
    (hconnect : connect_tx ctx tx totals view = (.ok (after_totals, undo), after)) :
    after.visible = view.visible.apply_tx (as_u32 ctx.height) tx ∧ after.Coherent ∧
      ∀ other ∈ rest, ∀ entry ∈ outpoints other, after.visible entry.1 = none := by
  have hfresh : ∀ outpoint ∈ spendable_outpoints (outpoints tx), view.visible outpoint = none := by
    intro outpoint hmem
    obtain ⟨entry, hentry, rfl⟩ := List.mem_map.mp hmem
    exact hfree tx (by simp) entry (List.mem_of_mem_filter hentry)
  obtain ⟨hvisible, hafter⟩ := connect_tx_applied hcoherent hfresh hconnect
  rw [List.map_cons, List.nodup_cons] at hnodup
  refine ⟨hvisible, hafter, fun other hother entry hmem => ?_⟩
  rw [hvisible]
  refine apply_tx_free ?_ (hfree other (List.mem_cons_of_mem _ hother) entry hmem)
  rw [outpoints_hash hmem]
  exact fun heq => hnodup.1 (heq ▸ List.mem_map_of_mem hother)

theorem disconnect_connect_txs {ctx : ConnectContext} {undo : List TxUndo} {txs : List Transaction} :
    ∀ {tx_index : Nat} {totals after_totals : ConnectTotals} {records : List TxUndo} {view after : CoinsViewCache},
      1 ≤ tx_index → (∀ tx ∈ txs, Checked tx ∧ tx.is_coinbase = false) → (txs.map Transaction.txid).Nodup →
      view.Coherent → Spendable view.visible →
      (∀ tx ∈ txs, ∀ entry ∈ outpoints tx, view.visible entry.1 = none) →
      connect_txs ctx txs totals view = (.ok (after_totals, records), after) →
      undo.drop (tx_index - 1) = records →
      after.Coherent ∧ ∀ {current : CoinsViewCache}, current.Coherent → current.visible = after.visible →
        ∃ restored, disconnect_txs undo (as_u32 ctx.height) (txs.zipIdx tx_index).reverse current =
          .ok (some true, restored) ∧ restored.visible = view.visible ∧ restored.Coherent := by
  induction txs with
  | nil =>
    intro tx_index totals after_totals records view after _ _ _ hcoherent _ _ hconnect _
    cases hconnect
    exact ⟨hcoherent, fun {current} hcurrent hvisible => ⟨current, rfl, hvisible, hcurrent⟩⟩
  | cons tx rest ih =>
    intro tx_index totals after_totals records view after hindex htxs hnodup hcoherent hspendable hfree hconnect hundo
    obtain ⟨mid_totals, first, mid, others, hfirst, hrest, rfl⟩ := connect_txs_cons_ok.mp hconnect
    obtain ⟨hcheck, rfl⟩ := connect_tx_checked hfirst
    obtain ⟨hvisible, hmid, hmid_free⟩ := connect_tx_fresh hcoherent hnodup hfree hfirst
    obtain ⟨hchecked, hcoinbase⟩ := htxs tx (by simp)
    obtain ⟨spent, hspent, _⟩ := spent_coins_of_check hcoinbase hcheck
    have hdrop : undo.drop (tx_index + 1 - 1) = others := by
      have hsucc : tx_index + 1 - 1 = tx_index - 1 + 1 := by omega
      rw [hsucc, ← List.drop_drop, hundo, hspent]
      rfl
    obtain ⟨hafter, hback⟩ := ih (by omega) (fun other hmem => htxs other (List.mem_cons_of_mem _ hmem))
      (List.nodup_cons.mp hnodup).2 hmid (hvisible ▸ hspendable.apply_tx tx) hmid_free hrest hdrop
    refine ⟨hafter, fun {current} hcurrent hsame => ?_⟩
    obtain ⟨between, hbetween, hbetween_visible, hbetween_coherent⟩ := hback hcurrent hsame
    have hrecord : (tx_undo tx (input_coins view.visible tx)).head? = undo[tx_index - 1]? := by
      rw [hspent, List.head?_cons, ← List.head?_drop, hundo, hspent]
      rfl
    obtain ⟨restored, hrestored, hrestored_visible, hrestored_coherent⟩ :=
      disconnect_tx_spec hchecked hspendable (hfree tx (by simp)) hcheck (fun _ => ⟨hindex, hrecord⟩)
        hbetween_coherent (hbetween_visible.trans hvisible)
    refine ⟨restored, ?_, hrestored_visible, hrestored_coherent⟩
    rw [List.zipIdx_cons, List.reverse_cons]
    exact disconnect_txs_append hbetween (disconnect_txs_singleton hrestored)

theorem connect_txs_undo_length {ctx : ConnectContext} {txs : List Transaction} :
    ∀ {totals after_totals : ConnectTotals} {records : List TxUndo} {view after : CoinsViewCache},
      (∀ tx ∈ txs, tx.is_coinbase = false) →
      connect_txs ctx txs totals view = (.ok (after_totals, records), after) → records.length = txs.length := by
  induction txs with
  | nil =>
    intro totals after_totals records view after _ hconnect
    cases hconnect
    rfl
  | cons tx rest ih =>
    intro totals after_totals records view after hcoinbase hconnect
    obtain ⟨mid_totals, first, mid, others, hfirst, hrest, rfl⟩ := connect_txs_cons_ok.mp hconnect
    obtain ⟨_, rfl⟩ := connect_tx_checked hfirst
    have hlength := ih (fun other hmem => hcoinbase other (List.mem_cons_of_mem _ hmem)) hrest
    simp [tx_undo, hcoinbase tx (by simp), hlength]

theorem mem_new_outpoints {txs : List Transaction} {tx : Transaction} (htx : tx ∈ txs)
    {entry : OutPoint × TxOut} (hmem : entry ∈ outpoints tx) : entry.1 ∈ new_outpoints txs :=
  List.mem_flatMap.mpr ⟨tx, htx, List.mem_map_of_mem hmem⟩

/-- A block that is connected to a coherent view over free outpoints leaves a
    coherent view, from which it disconnects cleanly. -/
theorem connect_block_reversible (env : Env) {block : Block} {height : Int} {view after : CoinsViewCache}
    {params : ConsensusParams} {mtp_at_height : Option (Int → Int)} {skip_scripts : Bool} {undo : BlockUndo}
    (hcoherent : view.Coherent) (hspendable : Spendable view.visible)
    (hchecked : ∀ tx ∈ block.vtx, Checked tx) (hnodup : (block.vtx.map Transaction.txid).Nodup)
    (hshape : CoinbaseFirst block.vtx)
    (hfree : ∀ outpoint ∈ new_outpoints block.vtx, view.visible outpoint = none)
    (hconnect : connect_block env block height view params mtp_at_height skip_scripts = (.ok undo, after)) :
    after.Coherent ∧ ∃ restored, disconnect_block block height after undo = .ok (.Ok, restored) ∧
      restored.visible = view.visible ∧ restored.Coherent := by
  obtain ⟨totals, _, hloop, _⟩ := connect_block_ok env hconnect
  have hreads := prepared_view_reads env block height params view
  generalize prepared_view env block height params view = read at hreads hloop
  have hread := hreads.coherent hcoherent
  cases htxs : block.vtx with
  | nil =>
    rw [htxs] at hloop
    simp only [connect_txs, Prod.mk.injEq, Except.ok.injEq] at hloop
    obtain ⟨⟨_, hundo⟩, rfl⟩ := hloop
    refine ⟨hread, read, ?_, hreads.visible, hread⟩
    unfold disconnect_block
    rw [htxs, ← hundo, if_neg (by simp)]
    rfl
  | cons coinbase rest =>
    rw [htxs] at hloop hchecked hnodup hshape hfree
    rw [← hreads.visible] at hspendable
    obtain ⟨mid_totals, first, mid, others, hfirst, hrest, hundo⟩ := connect_txs_cons_ok.mp hloop
    obtain ⟨hcheck, rfl⟩ := connect_tx_checked hfirst
    have hcoinbase : coinbase.is_coinbase = true := hshape.1 coinbase rfl
    have hfree_all : ∀ tx ∈ coinbase :: rest, ∀ entry ∈ outpoints tx, read.visible entry.1 = none := by
      intro tx htx entry hmem
      rw [hreads.visible]
      exact hfree _ (mem_new_outpoints htx hmem)
    obtain ⟨hvisible, hmid, hmid_free⟩ := connect_tx_fresh hread hnodup hfree_all hfirst
    have hothers : undo.tx_undo.drop (1 - 1) = others := by
      rw [hundo, tx_undo, hcoinbase]
      rfl
    obtain ⟨hafter, hback⟩ := disconnect_connect_txs le_rfl
      (fun tx hmem => ⟨hchecked tx (List.mem_cons_of_mem _ hmem), hshape.2 tx hmem⟩)
      (List.nodup_cons.mp hnodup).2 hmid
      (hvisible ▸ hspendable.apply_tx coinbase) hmid_free hrest hothers
    obtain ⟨between, hbetween, hbetween_visible, hbetween_coherent⟩ := hback hafter rfl
    have hlast : ∃ restored, disconnect_tx undo.tx_undo (as_u32 height) coinbase 0 between =
        .ok (some true, restored) ∧ restored.visible = read.visible ∧ restored.Coherent :=
      disconnect_tx_spec (hchecked coinbase (by simp)) hspendable (hfree_all coinbase (by simp)) hcheck
        (by simp [hcoinbase]) hbetween_coherent (hbetween_visible.trans hvisible)
    obtain ⟨restored, hrestored, hrestored_visible, hrestored_coherent⟩ := hlast
    refine ⟨hafter, restored, ?_, hrestored_visible.trans hreads.visible, hrestored_coherent⟩
    have hlength : undo.tx_undo.length = rest.length :=
      calc undo.tx_undo.length
          = others.length := congrArg List.length hothers
        _ = rest.length := connect_txs_undo_length hshape.2 hrest
    unfold disconnect_block
    rw [htxs, if_neg (by simp [hlength]), List.zipIdx_cons, List.reverse_cons]
    have hall : disconnect_txs undo.tx_undo (as_u32 height)
        ((rest.zipIdx (0 + 1)).reverse ++ [(coinbase, 0)]) after = .ok (some true, restored) := by
      exact disconnect_txs_append hbetween (disconnect_txs_singleton hrestored)
    rw [hall]
    rfl

/-- A view and a block that may be connected to it: no coin of the view is
    unspendable, the transactions pass their checks and have distinct ids, and
    no output exists already. -/
structure Connectable (view : CoinsViewCache) (block : Block) : Prop where
  spendable : Spendable view.visible
  checked : ∀ tx ∈ block.vtx, check_transaction tx = .ok ()
  txids_nodup : (block.vtx.map Transaction.txid).Nodup
  free : ∀ outpoint ∈ new_outpoints block.vtx, view.visible outpoint = none

/-- If the block connects, the block and its undo data disconnect with result
    `Ok`, and every outpoint shows the coin it had before. -/
def DisconnectUndoes (env : Env) (block : Block) (height : Int) (view : CoinsViewCache)
    (params : ConsensusParams) (mtp_at_height : Option (Int → Int)) (skip_scripts : Bool) : Prop :=
  ∀ undo after, connect_block env block height view params mtp_at_height skip_scripts = (.ok undo, after) →
    ∃ restored, disconnect_block block height after undo = .ok (.Ok, restored) ∧
      restored.visible = view.visible

/-- Disconnecting undoes connecting, for a block with its coinbase first and a
    view whose flags say what its base holds. -/
theorem disconnect_undoes_connect (env : Env) (block : Block) (height : Int) (view : CoinsViewCache)
    (params : ConsensusParams) (mtp_at_height : Option (Int → Int)) (skip_scripts : Bool)
    (hconnectable : Connectable view block) (hcoherent : view.Coherent) (hshape : CoinbaseFirst block.vtx) :
    DisconnectUndoes env block height view params mtp_at_height skip_scripts := by
  intro undo after hconnect
  obtain ⟨_, restored, hdisconnect, hvisible, _⟩ := connect_block_reversible env hcoherent
    hconnectable.spendable (fun tx hmem => check_transaction_ok (hconnectable.checked tx hmem))
    hconnectable.txids_nodup hshape hconnectable.free hconnect
  exact ⟨restored, hdisconnect, hvisible⟩

def op_true : Script := ⟨[OP_1]⟩

def sample_coinbase (script_sig : List UInt8) (value : Amount) : Transaction :=
  .new Env.op_true.hash256 1 [⟨.null, ⟨script_sig⟩, SEQUENCE_FINAL, .new⟩] [⟨value, op_true⟩] 0

/-- The outpoint that the payment below spends, and coins for it. -/
def funding_outpoint : OutPoint := ⟨1, 0⟩
def funding_coin (value : Amount) : Coin := ⟨⟨value, op_true⟩, 0, false⟩
def funding_base : CoinsViewDB := ⟨AList.singleton funding_outpoint (funding_coin 50), 0⟩

def sample_payment : Transaction :=
  .new Env.op_true.hash256 1 [⟨funding_outpoint, ⟨[]⟩, SEQUENCE_FINAL, .new⟩] [⟨40, op_true⟩] 0

def sample_block (txs : List Transaction) : Block :=
  ⟨⟨4, 0, (merkle.block_merkle_root Env.op_true.hash256 txs).1, 1, 0x207fffff, 2⟩, txs⟩

/-- A view that shows one coin, added past the coin that the base has there. -/
def covered_view : CoinsViewCache :=
  { CoinsViewCache.new funding_base with
    cache := AList.singleton funding_outpoint ⟨funding_coin 45, .DIRTY_FRESH⟩
    usage := 141 }

theorem spendable_of_funding {coins : CoinsMap} {value : Amount}
    (hat : coins funding_outpoint = some (funding_coin value))
    (hother : ∀ outpoint, outpoint ≠ funding_outpoint → coins outpoint = none) : Spendable coins := by
  intro outpoint coin hcoin
  by_cases heq : outpoint = funding_outpoint
  · rw [heq, hat] at hcoin
    cases hcoin
    rfl
  · rw [hother outpoint heq] at hcoin
    cases hcoin

theorem funding_base_other {outpoint : OutPoint} (hne : outpoint ≠ funding_outpoint) :
    funding_base.get_coin outpoint = none := by
  unfold CoinsViewDB.get_coin
  have hlookup : funding_base.coins.lookup outpoint = none :=
    AList.lookup_eq_none.mpr fun hmem => hne (List.mem_singleton.mp (AList.mem_keys.mp hmem))
  rw [hlookup]

theorem funding_view_connectable {txs : List Transaction}
    (hchecked : ∀ tx ∈ txs, check_transaction tx = .ok ()) (hnodup : (txs.map Transaction.txid).Nodup)
    (hfree : funding_outpoint ∉ new_outpoints txs) :
    Connectable (CoinsViewCache.new funding_base) (sample_block txs) where
  spendable := by
    rw [CoinsViewCache.new_visible]
    exact spendable_of_funding rfl fun _ hne => funding_base_other hne
  checked := hchecked
  txids_nodup := hnodup
  free := by
    intro outpoint hmem
    rw [CoinsViewCache.new_visible]
    exact funding_base_other fun heq => hfree (heq ▸ hmem)

theorem covered_view_other {outpoint : OutPoint} (hne : outpoint ≠ funding_outpoint) :
    covered_view.visible outpoint = none := by
  have hlookup : covered_view.cache.lookup outpoint = none :=
    AList.lookup_eq_none.mpr fun hmem => hne (List.mem_singleton.mp (AList.mem_keys.mp hmem))
  rw [CoinsViewCache.visible_of_not_cached hlookup]
  exact funding_base_other hne

/-- The block of a coinbase and a payment connects to a new view and disconnects
    again. -/
theorem disconnect_undoes_connect_payment :
    DisconnectUndoes .op_true (sample_block [sample_coinbase [1, 1] 50, sample_payment]) 1
      (CoinsViewCache.new funding_base) .regtest none false :=
  disconnect_undoes_connect _ _ _ _ _ _ _
    (funding_view_connectable (by decide +kernel) (by decide +kernel) (by decide +kernel))
    (CoinsViewCache.new_coherent _) ⟨by decide, by decide⟩

/-- A block of one payment without a coinbase connects, but its undo data is then
    one record too long. A view with a coin added past its base shows the base's
    coin once the added one is spent, and the restored coin overwrites it. -/
theorem disconnect_undoes_connect_fails :
    (Connectable (CoinsViewCache.new funding_base) (sample_block [sample_payment]) ∧
      (CoinsViewCache.new funding_base).Coherent ∧
      ¬ DisconnectUndoes .op_true (sample_block [sample_payment]) 1 (CoinsViewCache.new funding_base)
        .regtest none true) ∧
    ((CoinsViewCache.new funding_base).add_coin funding_outpoint (funding_coin 45) true = .ok covered_view ∧
      Connectable covered_view (sample_block [sample_coinbase [1, 1] 50, sample_payment]) ∧
      CoinbaseFirst [sample_coinbase [1, 1] 50, sample_payment] ∧
      ¬ DisconnectUndoes .op_true (sample_block [sample_coinbase [1, 1] 50, sample_payment]) 1 covered_view
        .regtest none true) := by
  have hfails : ∀ (block : Block) (view : CoinsViewCache) (undo : BlockUndo) (result : DisconnectResult),
      (connect_block .op_true block 1 view .regtest none true).1 = .ok undo →
      (disconnect_block block 1 (connect_block .op_true block 1 view .regtest none true).2 undo).map Prod.fst =
        .ok result → result ≠ .Ok → ¬ DisconnectUndoes .op_true block 1 view .regtest none true := by
    intro block view undo result hconnect hdisconnect hne hundoes
    obtain ⟨restored, hok, _⟩ := hundoes undo _ (Prod.ext hconnect rfl)
    rw [hok] at hdisconnect
    cases hdisconnect
    exact hne rfl
  refine ⟨⟨?_, CoinsViewCache.new_coherent _, ?_⟩, ⟨rfl, ?_, ⟨by decide, by decide⟩, ?_⟩⟩
  · exact funding_view_connectable (by decide +kernel) (by decide +kernel) (by decide +kernel)
  · exact hfails _ _ ⟨[⟨[funding_coin 50]⟩]⟩ .Failed (by decide +kernel) (by decide +kernel) (by decide)
  · refine ⟨spendable_of_funding rfl fun _ hne => covered_view_other hne, by decide +kernel,
      by decide +kernel, ?_⟩
    intro outpoint hmem
    exact covered_view_other fun heq => absurd (heq ▸ hmem) (by decide +kernel)
  · exact hfails _ _ ⟨[⟨[funding_coin 45]⟩]⟩ .Unclean (by decide +kernel) (by decide +kernel) (by decide)

end qubitcoin.validation
