import Qubitcoin.Lib.Ledger
import Qubitcoin.Validation.Disconnect

/-! Disconnecting the blocks above a flushed state from a view in which only the
    first of them are connected. -/

open qubitcoin primitives script transaction block coins params check validation_state rewind

namespace qubitcoin.validation

def changed_outpoints (tx : Transaction) : Set OutPoint :=
  {outpoint | outpoint ∈ spendable_outpoints (outpoints tx) ∨
    tx.is_coinbase = false ∧ outpoint ∈ tx.vin.map TxIn.prevout}

/-- The outpoints that connecting a list of transactions changes. -/
def changed_by (txs : List Transaction) : Set OutPoint :=
  {outpoint | ∃ tx ∈ txs, outpoint ∈ changed_outpoints tx}

theorem changed_by_cons (tx : Transaction) (rest : List Transaction) :
    changed_by (tx :: rest) = changed_outpoints tx ∪ changed_by rest := by
  ext outpoint
  simp [changed_by]

/-- No transaction creates a coin at an outpoint that has one when it is applied. -/
def CreatesFresh (height : UInt32) : CoinsMap → List Transaction → Prop
  | _, [] => True
  | coins, tx :: rest => (∀ outpoint ∈ spendable_outpoints (outpoints tx), coins outpoint = none) ∧
      CreatesFresh height (coins.apply_tx height tx) rest

theorem add_all_of_not_spendable {height : UInt32} {is_coinbase : Bool} {outputs : List (OutPoint × TxOut)}
    {query : OutPoint} (hquery : query ∉ spendable_outpoints outputs) (coins : CoinsMap) :
    coins.add_all height is_coinbase outputs query = coins query := by
  induction outputs generalizing coins with
  | nil => rfl
  | cons entry rest ih =>
    obtain ⟨outpoint, output⟩ := entry
    rw [CoinsMap.add_all]
    cases hunspendable : output.script_pubkey.is_unspendable with
    | true =>
      simp only [spendable_outpoints, List.filter_cons, hunspendable, Bool.not_true, Bool.false_eq_true,
        if_false] at hquery
      exact ih hquery coins
    | false =>
      simp only [spendable_outpoints, List.filter_cons, hunspendable, Bool.not_false, if_true, List.map_cons,
        List.mem_cons, not_or] at hquery
      rw [if_neg (by simp), ih hquery.2]
      exact Function.update_of_ne hquery.1 _ _

theorem apply_tx_unchanged {height : UInt32} {coins : CoinsMap} {tx : Transaction} {outpoint : OutPoint}
    (hunchanged : outpoint ∉ changed_outpoints tx) : coins.apply_tx height tx outpoint = coins outpoint := by
  obtain ⟨houtput, hinput⟩ := not_or.mp hunchanged
  rw [CoinsMap.apply_tx, add_all_of_not_spendable houtput]
  cases hcoinbase : tx.is_coinbase with
  | true => rfl
  | false => rw [if_neg (by simp), CoinsMap.spend_all_apply, if_neg fun hmem => hinput ⟨hcoinbase, hmem⟩]

theorem apply_tx_in_undo_restores {view : CoinsViewCache} (hcoherent : view.Coherent) (outpoint : OutPoint)
    {coin : Coin} (hspent : coin.is_spent = false) (hspendable : coin.tx_out.script_pubkey.is_unspendable = false) :
    ∃ result after, apply_tx_in_undo coin view outpoint = .ok (result, after) ∧ result ≠ .Failed ∧
      after.visible = Function.update view.visible outpoint (some coin) ∧ after.Coherent := by
  cases hvisible : view.visible outpoint with
  | none =>
    obtain ⟨after, hundo, hafter, hkept⟩ := apply_tx_in_undo_spec hcoherent hvisible hspent hspendable
    exact ⟨.Ok, after, hundo, by decide, hafter, hkept⟩
  | some existing =>
    have hreads := view.fetch_coin_reads outpoint
    obtain ⟨entry, hcached⟩ := CoinsViewCache.fetch_coin_cached hvisible
    obtain ⟨after, hadd⟩ : ∃ after, (view.fetch_coin outpoint).2.add_coin outpoint coin true = .ok after := by
      unfold CoinsViewCache.add_coin
      rw [if_neg (by simp [hspent]), if_neg (by simp [hspendable]), hcached]
      exact ⟨_, rfl⟩
    refine ⟨.Unclean, after, ?_, by decide, ?_, ?_⟩
    · have hfetched : (view.fetch_coin outpoint).1 = some existing := hvisible
      unfold apply_tx_in_undo CoinsViewCache.have_coin
      simp only [hfetched, Option.isSome_some, hspent, Bool.false_eq_true, if_false, hadd, if_true]
    · rw [(CoinsViewCache.add_coin_visible hadd).1, if_neg (by simp [hspendable]), hreads.visible]
    · refine (hreads.coherent hcoherent).add_coin hadd fun _ hfree => ?_
      rw [hcached] at hfree
      cases hfree

theorem restore_inputs_rewinds {coins : CoinsMap} {pairs : List (TxIn × Coin)} :
    ∀ {view : CoinsViewCache}, view.Coherent →
      (∀ pair ∈ pairs, coins pair.1.prevout = some pair.2 ∧ pair.2.is_spent = false ∧
        pair.2.tx_out.script_pubkey.is_unspendable = false) →
      ∃ clean after, restore_inputs pairs view = .ok (some clean, after) ∧ after.Coherent ∧
        Rewinds {outpoint | ∃ pair ∈ pairs, pair.1.prevout = outpoint} coins view.visible after.visible := by
  induction pairs with
  | nil =>
    intro view hcoherent _
    exact ⟨true, view, rfl, hcoherent, fun _ hmem => by simp at hmem, fun _ _ => rfl⟩
  | cons pair rest ih =>
    obtain ⟨input, coin⟩ := pair
    intro view hcoherent hpairs
    obtain ⟨hcoin, hspent, hspendable⟩ := hpairs (input, coin) (by simp)
    obtain ⟨result, mid, hmid, hresult, hvisible, hmid_coherent⟩ :=
      apply_tx_in_undo_restores hcoherent input.prevout hspent hspendable
    have hfirst : Rewinds {input.prevout} coins view.visible mid.visible := by
      constructor
      · rintro _ rfl
        rw [hvisible, Function.update_self, hcoin]
      · intro query hquery
        rw [hvisible, Function.update_of_ne hquery]
    obtain ⟨clean, after, hafter, hafter_coherent, hrest⟩ :=
      ih hmid_coherent fun pair hmem => hpairs pair (List.mem_cons_of_mem _ hmem)
    refine ⟨decide (result = .Ok) && clean, after, ?_, hafter_coherent, ?_⟩
    · unfold restore_inputs
      rw [hmid]
      simp only [bind, Except.bind, if_neg hresult, hafter, Option.map_some]
    · refine (hfirst.trans hrest fun _ _ => rfl).congr fun outpoint => ?_
      simp [or_comm, eq_comm]

theorem disconnect_tx_rewinds {ctx : ConnectContext} {tx : Transaction} {totals after_totals : ConnectTotals}
    {coins : CoinsMap} (hspendable : Spendable coins)
    (hfresh : ∀ outpoint ∈ spendable_outpoints (outpoints tx), coins outpoint = none)
    (hcheck : check_connect_tx ctx tx (input_coins coins tx) totals = .ok after_totals)
    (undo : List TxUndo) (tx_index : Nat) (height : UInt32)
    (hundo : tx.is_coinbase = false → 1 ≤ tx_index ∧
      (tx_undo tx (input_coins coins tx)).head? = undo[tx_index - 1]?)
    {view : CoinsViewCache} (hcoherent : view.Coherent) :
    ∃ clean restored, disconnect_tx undo height tx tx_index view = .ok (some clean, restored) ∧
      restored.Coherent ∧ Rewinds (changed_outpoints tx) coins view.visible restored.visible := by
  obtain ⟨hremoved, hremoved_coherent⟩ :=
    remove_outputs_removes height tx.is_coinbase (outpoints tx) hcoherent
  have houtputs : Rewinds {outpoint | outpoint ∈ spendable_outpoints (outpoints tx)} coins view.visible
      (remove_outputs height tx.is_coinbase (outpoints tx) view).2.visible := by
    constructor
    · intro outpoint (hmem : outpoint ∈ spendable_outpoints (outpoints tx))
      rw [hremoved, CoinsMap.spend_all_apply, if_pos hmem, hfresh outpoint hmem]
    · intro outpoint (hmem : outpoint ∉ spendable_outpoints (outpoints tx))
      rw [hremoved, CoinsMap.spend_all_apply, if_neg hmem]
  unfold disconnect_tx
  dsimp only
  cases hcoinbase : tx.is_coinbase with
  | true =>
    rw [hcoinbase] at hremoved_coherent houtputs
    refine ⟨_, _, rfl, hremoved_coherent, houtputs.congr fun outpoint => ?_⟩
    simp [changed_outpoints, hcoinbase]
  | false =>
    rw [hcoinbase] at hremoved_coherent houtputs
    obtain ⟨hindex, hrecord⟩ := hundo hcoinbase
    obtain ⟨spent, hspent_eq, hlength, hspent⟩ := spent_coins_of_check hcoinbase hcheck
    rw [hspent_eq, List.head?_cons] at hrecord
    simp only [Bool.false_eq_true, if_false]
    rw [if_neg (by omega), ← hrecord]
    dsimp only
    rw [if_neg (by simpa using hlength)]
    have hpairs : ∀ pair ∈ (tx.vin.zip spent).reverse, coins pair.1.prevout = some pair.2 ∧
        pair.2.is_spent = false ∧ pair.2.tx_out.script_pubkey.is_unspendable = false := by
      intro pair hmem
      obtain ⟨hcoin, hunspent⟩ := hspent pair (List.mem_reverse.mp hmem)
      exact ⟨hcoin, hunspent, hspendable _ _ hcoin⟩
    obtain ⟨clean, restored, hrestore, hrestored_coherent, hrestored⟩ :=
      restore_inputs_rewinds hremoved_coherent hpairs
    refine ⟨(remove_outputs height false (outpoints tx) view).1 && clean, restored, ?_, hrestored_coherent, ?_⟩
    · rw [hrestore]
      rfl
    · refine (houtputs.trans hrestored fun _ _ => rfl).congr fun outpoint => ?_
      have hprevouts : (tx.vin.zip spent).map Prod.fst = tx.vin := List.map_fst_zip hlength.ge
      have hinput : (∃ pair ∈ (tx.vin.zip spent).reverse, pair.1.prevout = outpoint) ↔
          outpoint ∈ tx.vin.map TxIn.prevout := by
        conv_rhs => rw [← hprevouts]
        simp only [List.mem_reverse, List.map_map, List.mem_map, Function.comp]
      simp only [changed_outpoints, hcoinbase, true_and, Set.mem_union, Set.mem_ofPred_eq, hinput]
      exact or_comm

theorem disconnect_txs_rewinds {ctx : ConnectContext} {undo : List TxUndo} {txs : List Transaction} :
    ∀ {tx_index : Nat} {totals after_totals : ConnectTotals} {records : List TxUndo} {view after : CoinsViewCache},
      1 ≤ tx_index → (∀ tx ∈ txs, tx.is_coinbase = false) → view.Coherent → Spendable view.visible →
      CreatesFresh (as_u32 ctx.height) view.visible txs →
      connect_txs ctx txs totals view = (.ok (after_totals, records), after) →
      undo.drop (tx_index - 1) = records →
      after.Coherent ∧ Spendable after.visible ∧
        (∀ outpoint, outpoint ∉ changed_by txs → after.visible outpoint = view.visible outpoint) ∧
        ∀ {current : CoinsViewCache}, current.Coherent → ∃ clean restored,
          disconnect_txs undo (as_u32 ctx.height) (txs.zipIdx tx_index).reverse current = .ok (some clean, restored) ∧
          restored.Coherent ∧ Rewinds (changed_by txs) view.visible current.visible restored.visible := by
  induction txs with
  | nil =>
    intro tx_index totals after_totals records view after _ _ hcoherent hspendable _ hconnect _
    cases hconnect
    refine ⟨hcoherent, hspendable, fun _ _ => rfl, fun {current} hcurrent => ⟨true, current, rfl, hcurrent, ?_⟩⟩
    exact (Rewinds.empty _ _).congr fun outpoint => by simp [changed_by]
  | cons tx rest ih =>
    intro tx_index totals after_totals records view after hindex hcoinbase hcoherent hspendable hfresh hconnect hundo
    obtain ⟨mid_totals, first, mid, others, hfirst, hrest, rfl⟩ := connect_txs_cons_ok.mp hconnect
    obtain ⟨hcheck, rfl⟩ := connect_tx_checked hfirst
    obtain ⟨hvisible, hmid⟩ := connect_tx_applied hcoherent hfresh.1 hfirst
    obtain ⟨spent, hspent, _⟩ := spent_coins_of_check (hcoinbase tx (by simp)) hcheck
    have hdrop : undo.drop (tx_index + 1 - 1) = others := by
      have hsucc : tx_index + 1 - 1 = tx_index - 1 + 1 := by omega
      rw [hsucc, ← List.drop_drop, hundo, hspent]
      rfl
    have hunchanged : ∀ outpoint, outpoint ∉ changed_outpoints tx → mid.visible outpoint = view.visible outpoint := by
      intro outpoint houtpoint
      rw [hvisible, apply_tx_unchanged houtpoint]
    obtain ⟨hafter, hafter_spendable, hothers, hback⟩ := ih (by omega)
      (fun other hmem => hcoinbase other (List.mem_cons_of_mem _ hmem)) hmid (hvisible ▸ hspendable.apply_tx tx)
      (hvisible ▸ hfresh.2) hrest hdrop
    refine ⟨hafter, hafter_spendable, fun outpoint houtpoint => ?_, fun {current} hcurrent => ?_⟩
    · rw [changed_by_cons, Set.mem_union, not_or] at houtpoint
      exact (hothers outpoint houtpoint.2).trans (hunchanged outpoint houtpoint.1)
    · obtain ⟨later, between, hbetween, hbetween_coherent, hlater⟩ := hback hcurrent
      have hrecord : (tx_undo tx (input_coins view.visible tx)).head? = undo[tx_index - 1]? := by
        rw [hspent, List.head?_cons, ← List.head?_drop, hundo, hspent]
        rfl
      obtain ⟨last, restored, hrestored, hrestored_coherent, hearlier⟩ := disconnect_tx_rewinds hspendable hfresh.1
        hcheck undo tx_index (as_u32 ctx.height) (fun _ => ⟨hindex, hrecord⟩) hbetween_coherent
      have hclean := disconnect_txs_append hbetween (disconnect_txs_singleton hrestored)
      rw [List.zipIdx_cons, List.reverse_cons, changed_by_cons]
      exact ⟨_, restored, hclean, hrestored_coherent, hlater.trans hearlier hunchanged⟩

theorem disconnect_block_rewinds (env : Env) {block : Block} {height : Int} {view after : CoinsViewCache}
    {params : ConsensusParams} {mtp_at_height : Option (Int → Int)} {skip_scripts : Bool} {undo : BlockUndo}
    (hcoherent : view.Coherent) (hspendable : Spendable view.visible) (hshape : CoinbaseFirst block.vtx)
    (hfresh : CreatesFresh (as_u32 height) view.visible block.vtx)
    (hconnect : connect_block env block height view params mtp_at_height skip_scripts = (.ok undo, after)) :
    after.Coherent ∧ Spendable after.visible ∧
      (∀ outpoint, outpoint ∉ changed_by block.vtx → after.visible outpoint = view.visible outpoint) ∧
      ∀ {current : CoinsViewCache}, current.Coherent → ∃ result restored,
        disconnect_block block height current undo = .ok (result, restored) ∧ result ≠ .Failed ∧
        restored.Coherent ∧ Rewinds (changed_by block.vtx) view.visible current.visible restored.visible := by
  obtain ⟨totals, _, hloop, _⟩ := connect_block_ok env hconnect
  have hreads := prepared_view_reads env block height params view
  generalize prepared_view env block height params view = read at hreads hloop
  have hread := hreads.coherent hcoherent
  rw [← hreads.visible] at hspendable hfresh ⊢
  cases htxs : block.vtx with
  | nil =>
    rw [htxs] at hloop
    simp only [connect_txs, Prod.mk.injEq, Except.ok.injEq] at hloop
    obtain ⟨⟨_, hundo⟩, rfl⟩ := hloop
    refine ⟨hread, hspendable, fun _ _ => rfl, fun {current} hcurrent => ⟨.Ok, current, ?_, by decide, hcurrent, ?_⟩⟩
    · unfold disconnect_block
      rw [htxs, ← hundo, if_neg (by simp)]
      rfl
    · exact (Rewinds.empty _ _).congr fun outpoint => by simp [changed_by]
  | cons coinbase rest =>
    rw [htxs] at hloop hshape hfresh
    obtain ⟨mid_totals, first, mid, others, hfirst, hrest, hundo⟩ := connect_txs_cons_ok.mp hloop
    obtain ⟨hcheck, rfl⟩ := connect_tx_checked hfirst
    have hcoinbase : coinbase.is_coinbase = true := hshape.1 coinbase rfl
    obtain ⟨hvisible, hmid⟩ := connect_tx_applied hread hfresh.1 hfirst
    have hunchanged : ∀ outpoint, outpoint ∉ changed_outpoints coinbase →
        mid.visible outpoint = read.visible outpoint := by
      intro outpoint houtpoint
      rw [hvisible, apply_tx_unchanged houtpoint]
    have hothers : undo.tx_undo.drop (1 - 1) = others := by
      rw [hundo, tx_undo, hcoinbase]
      rfl
    obtain ⟨hafter, hafter_spendable, hunchanged_rest, hback⟩ := disconnect_txs_rewinds le_rfl hshape.2 hmid
      (hvisible ▸ hspendable.apply_tx coinbase) (hvisible ▸ hfresh.2) hrest hothers
    refine ⟨hafter, hafter_spendable, fun outpoint houtpoint => ?_, fun {current} hcurrent => ?_⟩
    · rw [changed_by_cons, Set.mem_union, not_or] at houtpoint
      exact (hunchanged_rest outpoint houtpoint.2).trans (hunchanged outpoint houtpoint.1)
    · obtain ⟨later, between, hbetween, hbetween_coherent, hlater⟩ := hback hcurrent
      obtain ⟨last, restored, hrestored, hrestored_coherent, hearlier⟩ := disconnect_tx_rewinds hspendable
        hfresh.1 hcheck undo.tx_undo 0 (as_u32 height) (by simp [hcoinbase]) hbetween_coherent
      have hclean := disconnect_txs_append hbetween (disconnect_txs_singleton hrestored)
      generalize (later && last) = clean at hclean
      have hlength : undo.tx_undo.length = rest.length :=
        calc undo.tx_undo.length
            = others.length := congrArg List.length hothers
          _ = rest.length := connect_txs_undo_length hshape.2 hrest
      refine ⟨if clean then .Ok else .Unclean, restored, ?_, by cases clean <;> simp, hrestored_coherent, ?_⟩
      · unfold disconnect_block
        have hall : disconnect_txs undo.tx_undo (as_u32 height) (coinbase :: rest).zipIdx.reverse current =
            .ok (some clean, restored) := by
          rw [List.zipIdx_cons, List.reverse_cons]
          exact hclean
        rw [htxs, if_neg (by simp [hlength]), hall]
        cases clean <;> rfl
      · rw [changed_by_cons]
        exact hlater.trans hearlier hunchanged

/-- A block that was connected at a height, and the undo data written for it. -/
structure ConnectedBlock where
  block : Block
  height : Int
  undo : BlockUndo

/-- `connect_block` accepts the blocks one after the other, and none of them creates a coin
    at an outpoint that has one. -/
inductive ConnectsAll (env : Env) (params : ConsensusParams) :
    CoinsViewCache → List ConnectedBlock → CoinsViewCache → Prop
  | nil (view : CoinsViewCache) : ConnectsAll env params view [] view
  | cons {view mid after : CoinsViewCache} {step : ConnectedBlock} {rest : List ConnectedBlock}
    {mtp_at_height : Option (Int → Int)} {skip_scripts : Bool}
    (hfresh : CreatesFresh (as_u32 step.height) view.visible step.block.vtx)
    (hconnect : connect_block env step.block step.height view params mtp_at_height skip_scripts =
      (.ok step.undo, mid))
    (hrest : ConnectsAll env params mid rest after) : ConnectsAll env params view (step :: rest) after

/-- The disconnecting loop of the crash recovery, which goes on whatever the results are. -/
def rewind_blocks : List ConnectedBlock → CoinsViewCache →
    Except Panic (List DisconnectResult × CoinsViewCache)
  | [], view => .ok ([], view)
  | step :: rest, view => do
    let (result, view) ← disconnect_block step.block step.height view step.undo
    let (results, view) ← rewind_blocks rest view
    .ok (result :: results, view)

theorem rewind_blocks_concat {steps : List ConnectedBlock} {step : ConnectedBlock} {last : DisconnectResult} :
    ∀ {results : List DisconnectResult} {view mid after : CoinsViewCache},
      rewind_blocks steps view = .ok (results, mid) →
      disconnect_block step.block step.height mid step.undo = .ok (last, after) →
      rewind_blocks (steps ++ [step]) view = .ok (results ++ [last], after) := by
  induction steps with
  | nil =>
    intro results view mid after hsteps hlast
    cases hsteps
    rw [List.nil_append]
    unfold rewind_blocks
    exact bind_eq_ok_iff.mpr ⟨(last, after), hlast, rfl⟩
  | cons first rest ih =>
    intro results view mid after hsteps hlast
    unfold rewind_blocks at hsteps
    obtain ⟨⟨result, next⟩, hnext, hsteps⟩ := bind_eq_ok_iff.mp hsteps
    obtain ⟨⟨others, other⟩, hothers, hsteps⟩ := bind_eq_ok_iff.mp hsteps
    cases hsteps
    rw [List.cons_append]
    unfold rewind_blocks
    refine bind_eq_ok_iff.mpr ⟨(result, next), hnext, ?_⟩
    exact bind_eq_ok_iff.mpr ⟨(others ++ [last], after), ih hothers hlast, rfl⟩

/-- The outpoints that the blocks change. -/
def changed_by_all (steps : List ConnectedBlock) : Set OutPoint :=
  {outpoint | ∃ step ∈ steps, outpoint ∈ changed_by step.block.vtx}

theorem changed_by_all_cons (step : ConnectedBlock) (rest : List ConnectedBlock) :
    changed_by_all (step :: rest) = changed_by step.block.vtx ∪ changed_by_all rest := by
  ext outpoint
  simp [changed_by_all]

theorem ConnectsAll.rewinds {env : Env} {params : ConsensusParams} {view after : CoinsViewCache}
    {steps : List ConnectedBlock} (hconnects : ConnectsAll env params view steps after)
    (hcoherent : view.Coherent) (hspendable : Spendable view.visible)
    (hshape : ∀ step ∈ steps, CoinbaseFirst step.block.vtx) :
    after.Coherent ∧ Spendable after.visible ∧
      (∀ outpoint, outpoint ∉ changed_by_all steps → after.visible outpoint = view.visible outpoint) ∧
      ∀ {current : CoinsViewCache}, current.Coherent → ∃ results restored,
        rewind_blocks steps.reverse current = .ok (results, restored) ∧ .Failed ∉ results ∧
        restored.Coherent ∧ Rewinds (changed_by_all steps) view.visible current.visible restored.visible := by
  induction hconnects with
  | nil view =>
    refine ⟨hcoherent, hspendable, fun _ _ => rfl, fun {current} hcurrent => ⟨[], current, rfl, by simp, hcurrent, ?_⟩⟩
    exact (Rewinds.empty _ _).congr fun outpoint => by simp [changed_by_all]
  | @cons view mid after step rest mtp_at_height skip_scripts hfresh hconnect hrest ih =>
    obtain ⟨hmid, hmid_spendable, hunchanged, hundo⟩ :=
      disconnect_block_rewinds env hcoherent hspendable (hshape step (by simp)) hfresh hconnect
    obtain ⟨hafter, hafter_spendable, hothers, hback⟩ := ih hmid hmid_spendable
      fun other hmem => hshape other (List.mem_cons_of_mem _ hmem)
    refine ⟨hafter, hafter_spendable, fun outpoint houtpoint => ?_, fun {current} hcurrent => ?_⟩
    · rw [changed_by_all_cons, Set.mem_union, not_or] at houtpoint
      exact (hothers outpoint houtpoint.2).trans (hunchanged outpoint houtpoint.1)
    · obtain ⟨results, between, hbetween, hresults, hbetween_coherent, hlater⟩ := hback hcurrent
      obtain ⟨last, restored, hrestored, hlast, hrestored_coherent, hearlier⟩ := hundo hbetween_coherent
      rw [List.reverse_cons, changed_by_all_cons]
      refine ⟨results ++ [last], restored, rewind_blocks_concat hbetween hrestored, ?_, hrestored_coherent,
        hlater.trans hearlier hunchanged⟩
      simp [hresults, hlast.symm]

/-- Rewinding all the blocks from `current` shows the coins of `view`. -/
def RewindRestores (view current : CoinsViewCache) (steps : List ConnectedBlock) : Prop :=
  ∃ results restored, rewind_blocks steps.reverse current = .ok (results, restored) ∧
    restored.visible = view.visible

/-- Of blocks that connect one after the other, only the first are connected; all of them
    are disconnected, and the coins are those from before the first. The view may be any
    that shows the coins after those first blocks. -/
theorem rewind_restores (env : Env) (params : ConsensusParams) {view mid after : CoinsViewCache}
    {first later : List ConnectedBlock} (hcoherent : view.Coherent) (hspendable : Spendable view.visible)
    (hshape : ∀ step ∈ first ++ later, CoinbaseFirst step.block.vtx)
    (hfirst : ConnectsAll env params view first mid) (hlater : ConnectsAll env params mid later after) :
    RewindRestores view mid (first ++ later) ∧
      ∀ current : CoinsViewCache, current.Coherent → current.visible = mid.visible →
        RewindRestores view current (first ++ later) := by
  have hall : ConnectsAll env params view (first ++ later) after := by
    clear hcoherent hspendable hshape
    induction hfirst with
    | nil view => exact hlater
    | cons hfresh hconnect _ ih => exact .cons hfresh hconnect (ih hlater)
  obtain ⟨_, _, _, hback⟩ := hall.rewinds hcoherent hspendable hshape
  obtain ⟨hmid, _, hunchanged, _⟩ :=
    hfirst.rewinds hcoherent hspendable fun step hmem => hshape step (List.mem_append_left _ hmem)
  have hrestores : ∀ current : CoinsViewCache, current.Coherent → current.visible = mid.visible →
      RewindRestores view current (first ++ later) := by
    intro current hcurrent hvisible
    obtain ⟨results, restored, hrewind, _, _, hrewinds⟩ := hback hcurrent
    refine ⟨results, restored, hrewind, hrewinds.eq_before fun outpoint houtpoint => ?_⟩
    rw [hvisible]
    refine hunchanged outpoint fun ⟨step, hmem, hchanged⟩ => houtpoint ⟨step, ?_, hchanged⟩
    exact List.mem_append_left _ hmem
  exact ⟨hrestores mid hmid rfl, hrestores⟩

/-- A block of the sample coinbase and payment, connected at height 1. -/
def payment_step : ConnectedBlock :=
  ⟨sample_block [sample_coinbase [1, 1] 50, sample_payment], 1, ⟨[⟨[funding_coin 50]⟩]⟩⟩

/-- A block is disconnected from the view it was never connected to. -/
theorem rewind_restores_payment :
    RewindRestores (CoinsViewCache.new funding_base) (CoinsViewCache.new funding_base) [payment_step] := by
  have hspendable : Spendable (CoinsViewCache.new funding_base).visible := by
    rw [CoinsViewCache.new_visible]
    exact spendable_of_funding rfl fun _ hne => funding_base_other hne
  have hconnects : ConnectsAll .op_true .regtest (CoinsViewCache.new funding_base) [payment_step]
      (connect_block .op_true payment_step.block 1 (CoinsViewCache.new funding_base) .regtest none false).2 :=
    .cons ⟨by decide +kernel, by decide +kernel, trivial⟩ (Prod.ext (by decide +kernel) rfl) (.nil _)
  exact (rewind_restores .op_true .regtest (CoinsViewCache.new_coherent _) hspendable
    (by intro step hmem; cases List.mem_singleton.mp hmem; exact ⟨by decide, by decide⟩) (.nil _) hconnects).1

/-- The payment without a coinbase. -/
def bare_step : ConnectedBlock := ⟨sample_block [sample_payment], 1, ⟨[⟨[funding_coin 50]⟩]⟩⟩

/-- A coin that no script can spend, a base that holds it, and the block that spends it. -/
def burned_coin : Coin := ⟨⟨50, ⟨[OP_RETURN]⟩⟩, 0, false⟩
def burned_base : CoinsViewDB := ⟨AList.singleton funding_outpoint burned_coin, 0⟩
def burned_step : ConnectedBlock := { payment_step with undo := ⟨[⟨[burned_coin]⟩]⟩ }

/-- A view that hides a coin of its base under an entry that is not `DIRTY`. -/
def payment_outpoint : OutPoint := ⟨sample_payment.txid, 0⟩
def hidden_view : CoinsViewCache :=
  { CoinsViewCache.new ⟨(AList.singleton payment_outpoint (funding_coin 7)).insert funding_outpoint
      (funding_coin 50), 0⟩ with
    cache := AList.singleton payment_outpoint ⟨.empty, .NONE⟩ }

theorem hidden_view_other {outpoint : OutPoint} (hne : outpoint ≠ funding_outpoint) :
    hidden_view.visible outpoint = none := by
  by_cases heq : outpoint = payment_outpoint
  · have hcache : hidden_view.cache.lookup payment_outpoint = some ⟨.empty, .NONE⟩ := List.dlookup_cons_eq _ _ _
    rw [heq, CoinsViewCache.visible_of_cached hcache]
    rfl
  · have hcache : hidden_view.cache.lookup outpoint = none :=
      AList.lookup_eq_none.mpr fun hmem => heq (List.mem_singleton.mp (AList.mem_keys.mp hmem))
    rw [CoinsViewCache.visible_of_not_cached hcache]
    unfold CoinsViewDB.get_coin hidden_view
    dsimp only [CoinsViewCache.new]
    rw [AList.lookup_insert_ne hne,
      AList.lookup_eq_none.mpr fun hmem => heq (List.mem_singleton.mp (AList.mem_keys.mp hmem))]

theorem not_rewind_restores {view current : CoinsViewCache} {steps : List ConnectedBlock} {outpoint : OutPoint}
    {shown : Option Coin} (hne : shown ≠ view.visible outpoint)
    (hrewind : (rewind_blocks steps.reverse current).map (fun rewound => rewound.2.visible outpoint) = .ok shown) :
    ¬ RewindRestores view current steps := by
  rintro ⟨results, restored, hresult, hvisible⟩
  rw [hresult] at hrewind
  cases hrewind
  exact hne (congrFun hvisible outpoint)

/-- The undo data of a block without a coinbase is one record too long, and nothing is
    disconnected. A coin that is unspendable is not put back. A coin of the base that an
    entry hides is shown again once an output at its outpoint is added and removed. -/
theorem rewind_restores_fails :
    ((CoinsViewCache.new funding_base).Coherent ∧ Spendable (CoinsViewCache.new funding_base).visible ∧
      ∃ after, ConnectsAll .op_true .regtest (CoinsViewCache.new funding_base) [bare_step] after ∧
        ¬ RewindRestores (CoinsViewCache.new funding_base) after [bare_step]) ∧
    ((CoinsViewCache.new burned_base).Coherent ∧ CoinbaseFirst burned_step.block.vtx ∧
      ∃ after, ConnectsAll .op_true .regtest (CoinsViewCache.new burned_base) [burned_step] after ∧
        ¬ RewindRestores (CoinsViewCache.new burned_base) after [burned_step]) ∧
    (Spendable hidden_view.visible ∧ CoinbaseFirst payment_step.block.vtx ∧
      ∃ after, ConnectsAll .op_true .regtest hidden_view [payment_step] after ∧
        ¬ RewindRestores hidden_view after [payment_step]) := by
  have hconnects : ∀ (view : CoinsViewCache) (step : ConnectedBlock),
      CreatesFresh (as_u32 step.height) view.visible step.block.vtx →
      (connect_block .op_true step.block step.height view .regtest none true).1 = .ok step.undo →
      ConnectsAll .op_true .regtest view [step]
        (connect_block .op_true step.block step.height view .regtest none true).2 :=
    fun view step hfresh hconnect => .cons hfresh (Prod.ext hconnect rfl) (.nil _)
  refine ⟨⟨CoinsViewCache.new_coherent _, ?_, _, hconnects _ _ ⟨by decide +kernel, trivial⟩ (by decide +kernel), ?_⟩,
    ⟨CoinsViewCache.new_coherent _, ⟨by decide, by decide⟩, _,
      hconnects _ _ ⟨by decide +kernel, by decide +kernel, trivial⟩ (by decide +kernel), ?_⟩,
    ⟨?_, ⟨by decide, by decide⟩, _,
      hconnects _ _ ⟨by decide +kernel, by decide +kernel, trivial⟩ (by decide +kernel), ?_⟩⟩
  · rw [CoinsViewCache.new_visible]
    exact spendable_of_funding rfl fun _ hne => funding_base_other hne
  · exact @not_rewind_restores _ _ _ funding_outpoint none (by decide +kernel) (by decide +kernel)
  · exact @not_rewind_restores _ _ _ funding_outpoint none (by decide +kernel) (by decide +kernel)
  · exact spendable_of_funding rfl fun _ hne => hidden_view_other hne
  · exact @not_rewind_restores _ _ _ payment_outpoint (some (funding_coin 7)) (by decide +kernel) (by decide +kernel)

end qubitcoin.validation
