import Qubitcoin.Validation.Disconnect

/-! What a connected block takes its coins from: every input was a coin before it, or is an output
    of the block, and none of them is a coin after it. -/

open qubitcoin primitives transaction block coins params check validation_state

namespace qubitcoin.validation

theorem apply_tx_source {height : UInt32} {coins : CoinsMap} {tx : Transaction} {outpoint : OutPoint}
    (hsome : (coins.apply_tx height tx outpoint).isSome = true) :
    (coins outpoint).isSome = true ∨ tx.txid = outpoint.hash := by
  by_contra hnot
  obtain ⟨hcoin, hhash⟩ := not_or.mp hnot
  rw [apply_tx_free (fun heq => hhash heq.symm) (by simpa using hcoin)] at hsome
  cases hsome

theorem apply_txs_source {height : UInt32} {txs : List Transaction} {outpoint : OutPoint} : ∀ {coins : CoinsMap},
    (coins.apply_txs height txs outpoint).isSome = true →
      (coins outpoint).isSome = true ∨ ∃ tx ∈ txs, tx.txid = outpoint.hash := by
  induction txs with
  | nil => exact fun hsome => .inl hsome
  | cons tx rest ih =>
    intro coins hsome
    rw [CoinsMap.apply_txs_cons] at hsome
    obtain hmid | ⟨other, hother, hhash⟩ := ih hsome
    · exact (apply_tx_source hmid).imp_right fun hhash => ⟨tx, List.mem_cons_self, hhash⟩
    · exact .inr ⟨other, List.mem_cons_of_mem tx hother, hhash⟩

theorem apply_tx_spent {height : UInt32} {coins : CoinsMap} {tx : Transaction} (hcoinbase : tx.is_coinbase = false)
    {input : TxIn} (hinput : input ∈ tx.vin) (hother : tx.txid ≠ input.prevout.hash) :
    coins.apply_tx height tx input.prevout = none := by
  unfold CoinsMap.apply_tx
  rw [hcoinbase, if_neg (by simp), CoinsMap.add_all_of_not_mem, CoinsMap.spend_all_apply,
    if_pos (List.mem_map_of_mem hinput)]
  intro hmem
  obtain ⟨entry, hentry, hkey⟩ := List.mem_map.mp hmem
  exact hother ((outpoints_hash hentry).symm.trans (congrArg OutPoint.hash hkey))

theorem apply_tx_kept {height : UInt32} {coins : CoinsMap} {tx : Transaction} {outpoint : OutPoint}
    (hunspent : tx.is_coinbase = false → ∀ input ∈ tx.vin, input.prevout ≠ outpoint)
    (hsome : (coins outpoint).isSome = true) : (coins.apply_tx height tx outpoint).isSome = true := by
  have hadded : ∀ (outputs : List (OutPoint × TxOut)) (coins : CoinsMap), (coins outpoint).isSome = true →
      (coins.add_all height tx.is_coinbase outputs outpoint).isSome = true := by
    intro outputs
    induction outputs with
    | nil => exact fun _ hcoin => hcoin
    | cons entry rest ih =>
      obtain ⟨key, output⟩ := entry
      intro coins hcoin
      unfold CoinsMap.add_all
      apply ih
      split
      · exact hcoin
      · rw [Function.update_apply]
        split
        · rfl
        · exact hcoin
  unfold CoinsMap.apply_tx
  apply hadded
  split
  · exact hsome
  · next hcoinbase =>
    rw [CoinsMap.spend_all_apply, if_neg]
    · exact hsome
    · intro hmem
      obtain ⟨input, hinput, hprevout⟩ := List.mem_map.mp hmem
      exact hunspent (Bool.eq_false_of_not_eq_true hcoinbase) input hinput hprevout

theorem apply_txs_kept {height : UInt32} {txs : List Transaction} {outpoint : OutPoint}
    (hunspent : ∀ tx ∈ txs, tx.is_coinbase = false → ∀ input ∈ tx.vin, input.prevout ≠ outpoint) :
    ∀ {coins : CoinsMap}, (coins outpoint).isSome = true → (coins.apply_txs height txs outpoint).isSome = true := by
  induction txs with
  | nil => exact fun hsome => hsome
  | cons tx rest ih =>
    intro coins hsome
    rw [CoinsMap.apply_txs_cons]
    exact ih (fun other hother => hunspent other (List.mem_cons_of_mem tx hother))
      (apply_tx_kept (hunspent tx List.mem_cons_self) hsome)

/-- No coin is an output of one of the transactions. -/
def Unissued (coins : CoinsMap) (txs : List Transaction) : Prop :=
  ∀ outpoint, (coins outpoint).isSome = true → ∀ tx ∈ txs, tx.txid ≠ outpoint.hash

theorem Unissued.free {coins : CoinsMap} {txs : List Transaction} (hunissued : Unissued coins txs) :
    ∀ tx ∈ txs, ∀ entry ∈ outpoints tx, coins entry.1 = none := by
  intro tx htx entry hentry
  by_contra hsome
  exact hunissued entry.1 (Option.isSome_iff_ne_none.mpr hsome) tx htx (outpoints_hash hentry).symm

theorem Unissued.apply_tx {height : UInt32} {coins : CoinsMap} {tx : Transaction} {rest : List Transaction}
    (hunissued : Unissued coins (tx :: rest)) (hnodup : ((tx :: rest).map Transaction.txid).Nodup) :
    Unissued (coins.apply_tx height tx) rest := by
  intro outpoint hsome other hother
  obtain hcoin | hhash := apply_tx_source hsome
  · exact hunissued outpoint hcoin other (List.mem_cons_of_mem tx hother)
  · rw [← hhash]
    intro heq
    exact (List.nodup_cons.mp hnodup).1 (heq ▸ List.mem_map_of_mem hother)

theorem apply_txs_free {height : UInt32} {txs : List Transaction} {outpoint : OutPoint}
    (hother : ∀ tx ∈ txs, tx.txid ≠ outpoint.hash) {coins : CoinsMap} (hnone : coins outpoint = none) :
    coins.apply_txs height txs outpoint = none := by
  by_contra hsome
  obtain hcoin | ⟨tx, htx, hhash⟩ := apply_txs_source (Option.isSome_iff_ne_none.mpr hsome)
  · rw [hnone] at hcoin
    cases hcoin
  · exact hother tx htx hhash

theorem connect_txs_inputs {ctx : ConnectContext} {txs : List Transaction} :
    ∀ {totals after_totals : ConnectTotals} {records : List TxUndo} {view after : CoinsViewCache},
      view.Coherent → (txs.map Transaction.txid).Nodup → Unissued view.visible txs →
      connect_txs ctx txs totals view = (.ok (after_totals, records), after) →
      after.visible = view.visible.apply_txs (as_u32 ctx.height) txs ∧
        ∀ tx ∈ txs, tx.is_coinbase = false → ∀ input ∈ tx.vin, after.visible input.prevout = none ∧
          ((view.visible input.prevout).isSome = true ∨ ∃ creator ∈ txs, creator.txid = input.prevout.hash) := by
  induction txs with
  | nil =>
    intro totals after_totals records view after _ _ _ hconnect
    cases hconnect
    exact ⟨rfl, nofun⟩
  | cons tx rest ih =>
    intro totals after_totals records view after hcoherent hnodup hunissued hconnect
    obtain ⟨mid_totals, first, mid, others, hfirst, hrest, rfl⟩ := connect_txs_cons_ok.mp hconnect
    obtain ⟨hcheck, _⟩ := connect_tx_checked hfirst
    obtain ⟨hvisible, hmid, _⟩ := connect_tx_fresh hcoherent hnodup hunissued.free hfirst
    have hunissued_mid : Unissued mid.visible rest := hvisible ▸ hunissued.apply_tx hnodup
    obtain ⟨happlied, hinputs⟩ := ih hmid (List.nodup_cons.mp hnodup).2 hunissued_mid hrest
    refine ⟨by rw [happlied, hvisible, CoinsMap.apply_txs_cons], ?_⟩
    intro other hother hcoinbase input hinput
    obtain rfl | hother := List.mem_cons.mp hother
    · obtain ⟨coins, _, hfetched, _⟩ := check_connect_tx_ok hcoinbase hcheck
      unfold input_coins at hfetched
      rw [hcoinbase, if_neg (by simp)] at hfetched
      have hcoin : (view.visible input.prevout).isSome = true := by
        have hmem : view.visible input.prevout ∈ coins.map some :=
          hfetched ▸ List.mem_map.mpr ⟨input, hinput, rfl⟩
        obtain ⟨coin, _, hcoin⟩ := List.mem_map.mp hmem
        rw [← hcoin]
        rfl
      have hspent : mid.visible input.prevout = none := by
        rw [hvisible]
        exact apply_tx_spent hcoinbase hinput (hunissued _ hcoin other List.mem_cons_self)
      refine ⟨?_, .inl hcoin⟩
      rw [happlied]
      exact apply_txs_free (fun later hlater => hunissued _ hcoin later (List.mem_cons_of_mem other hlater)) hspent
    · obtain ⟨hspent, hsource⟩ := hinputs other hother hcoinbase input hinput
      refine ⟨hspent, ?_⟩
      obtain hcoin | ⟨creator, hcreator, hhash⟩ := hsource
      · rw [hvisible] at hcoin
        exact (apply_tx_source hcoin).imp_right fun hhash => ⟨tx, List.mem_cons_self, hhash⟩
      · exact .inr ⟨creator, List.mem_cons_of_mem tx hcreator, hhash⟩

theorem connect_block_inputs (env : Env) {block : Block} {height : Int} {view after : CoinsViewCache}
    {params : ConsensusParams} {mtp_at_height : Option (Int → Int)} {skip_scripts : Bool} {undo : BlockUndo}
    (hblock : CheckedBlock block) (hcoherent : view.Coherent) (hunissued : Unissued view.visible block.vtx)
    (hconnect : connect_block env block height view params mtp_at_height skip_scripts = (.ok undo, after)) :
    after.visible = view.visible.apply_txs (as_u32 height) block.vtx ∧
      ∀ tx ∈ block.vtx, tx.is_coinbase = false → ∀ input ∈ tx.vin, after.visible input.prevout = none ∧
        ((view.visible input.prevout).isSome = true ∨ ∃ creator ∈ block.vtx, creator.txid = input.prevout.hash) := by
  obtain ⟨totals, _, hloop, _⟩ := connect_block_ok env hconnect
  have hreads := prepared_view_reads env block height params view
  rw [← hreads.visible] at hunissued ⊢
  exact connect_txs_inputs (hreads.coherent hcoherent) hblock.txids_nodup hunissued hloop

end qubitcoin.validation

/-! A connected block creates no more value than the subsidy, and no sum of
    amounts on the way overflows. -/

open qubitcoin primitives script transaction block coins params check validation_state

namespace qubitcoin.validation

theorem outpoints_values (tx : Transaction) :
    ((outpoints tx).map fun entry => entry.2.value).sum = value_out tx.vout := by
  have houtputs : (outpoints tx).map Prod.snd = tx.vout := by
    unfold outpoints
    rw [List.map_map]
    exact List.zipIdx_map_fst 0 tx.vout
  rw [value_out, ← houtputs, List.map_map]
  rfl

theorem add_outputs_total {tx : Transaction} (hchecked : Checked tx) {height : UInt32} {is_coinbase : Bool}
    {coins : CoinsMap} (hfinite : coins.Finite) (hfree : ∀ entry ∈ outpoints tx, coins entry.1 = none) :
    (coins.add_all height is_coinbase (outpoints tx)).total ≤ coins.total + value_out tx.vout := by
  rw [← outpoints_values]
  refine hfinite.total_add_all (outpoints_nodup hchecked.vout_length) ?_ hfree
  intro entry hmem
  exact (money_range_iff.mp (hchecked.values _ (outpoints_output hmem))).1

theorem apply_coinbase_total {tx : Transaction} (hchecked : Checked tx) (hcoinbase : tx.is_coinbase = true)
    {height : UInt32} {coins : CoinsMap} (hfinite : coins.Finite)
    (hfree : ∀ entry ∈ outpoints tx, coins entry.1 = none) :
    (coins.apply_tx height tx).total ≤ coins.total + value_out tx.vout := by
  unfold CoinsMap.apply_tx
  rw [hcoinbase, if_pos rfl]
  exact add_outputs_total hchecked hfinite hfree

theorem apply_tx_total {tx : Transaction} (hchecked : Checked tx) (hcoinbase : tx.is_coinbase = false)
    {height : UInt32} {coins : CoinsMap} (hfinite : coins.Finite)
    (hfree : ∀ entry ∈ outpoints tx, coins entry.1 = none) {spent : List Coin}
    (hspent : input_coins coins tx = spent.map some) :
    (coins.apply_tx height tx).total ≤ coins.total - coins_value spent + value_out tx.vout := by
  have hvalue : ((tx.vin.map TxIn.prevout).map fun outpoint => value_of (coins outpoint)).sum =
      coins_value spent := by
    have hmap : tx.vin.map (fun input => coins input.prevout) = spent.map some := by
      simpa [input_coins, hcoinbase] using hspent
    calc ((tx.vin.map TxIn.prevout).map fun outpoint => value_of (coins outpoint)).sum
        = ((tx.vin.map fun input => coins input.prevout).map value_of).sum := by
          rw [List.map_map, List.map_map]
          rfl
      _ = coins_value spent := by
          rw [hmap, List.map_map]
          rfl
  unfold CoinsMap.apply_tx
  rw [hcoinbase, if_neg (by simp), ← hvalue, ← hfinite.total_spend_all hchecked.prevouts_nodup]
  refine add_outputs_total hchecked hfinite.spend_all ?_
  intro entry hmem
  rw [CoinsMap.spend_all_apply, hfree entry hmem, ite_self]

theorem connect_txs_total {ctx : ConnectContext} {txs : List Transaction} :
    ∀ {totals after_totals : ConnectTotals} {records : List TxUndo} {view after : CoinsViewCache},
      (∀ tx ∈ txs, Checked tx ∧ tx.is_coinbase = false) → (txs.map Transaction.txid).Nodup → view.Coherent →
      (∀ tx ∈ txs, ∀ entry ∈ outpoints tx, view.visible entry.1 = none) →
      connect_txs ctx txs totals view = (.ok (after_totals, records), after) →
      after.visible.total + after_totals.total_fees ≤ view.visible.total + totals.total_fees := by
  induction txs with
  | nil =>
    intro totals after_totals records view after _ _ _ _ hconnect
    cases hconnect
    exact le_rfl
  | cons tx rest ih =>
    intro totals after_totals records view after htxs hnodup hcoherent hfree hconnect
    obtain ⟨mid_totals, first, mid, others, hfirst, hrest, rfl⟩ := connect_txs_cons_ok.mp hconnect
    obtain ⟨hcheck, _⟩ := connect_tx_checked hfirst
    obtain ⟨hchecked, hcoinbase⟩ := htxs tx (by simp)
    obtain ⟨hvisible, hmid, hmid_free⟩ := connect_tx_fresh hcoherent hnodup hfree hfirst
    obtain ⟨spent, total_out, hspent, _, hout, _, hfees, _⟩ := check_connect_tx_ok hcoinbase hcheck
    rw [hchecked.get_value_out] at hout
    cases hout
    have hstep : (view.visible.apply_tx (as_u32 ctx.height) tx).total ≤ _ :=
      apply_tx_total hchecked hcoinbase view.visible_finite (hfree tx (by simp)) hspent
    rw [← hvisible] at hstep
    have hlater := ih (fun other hmem => htxs other (List.mem_cons_of_mem _ hmem))
      (List.nodup_cons.mp hnodup).2 hmid hmid_free hrest
    linarith

theorem get_block_subsidy_range {S : Type} {height : Int} {params : ConsensusParams} {subsidy : Int}
    (hsubsidy : (get_block_subsidy height params : Except (Failure S) Amount) = .ok subsidy) :
    0 ≤ subsidy ∧ subsidy ≤ 50 * COIN := by
  unfold get_block_subsidy at hsubsidy
  split at hsubsidy
  · cases hsubsidy
  · obtain ⟨halvings, _, hsubsidy⟩ := bind_eq_ok_iff.mp hsubsidy
    split at hsubsidy
    · cases hsubsidy
      decide
    · split at hsubsidy
      · cases hsubsidy
      · cases hsubsidy
        have hcoin : (0 : Int) ≤ 50 * COIN := by decide
        exact ⟨Int.ediv_nonneg hcoin (by positivity), Int.ediv_le_self _ hcoin⟩

variable (env : Env)

theorem check_connected_reward {block : Block} {height : Int} {params : ConsensusParams} {skip_scripts : Bool}
    {script_flags : UInt32} {totals : ConnectTotals} {undo : List TxUndo} {coinbase : Transaction}
    {rest : List Transaction} (htxs : block.vtx = coinbase :: rest) (hchecked : Checked coinbase)
    (hconnected : check_connected env block height params skip_scripts script_flags totals undo = .ok ()) :
    ∃ subsidy, (get_block_subsidy height params : Except (Failure BlockValidationState) Amount) = .ok subsidy ∧
      value_out coinbase.vout ≤ totals.total_fees + subsidy := by
  unfold check_connected at hconnected
  obtain ⟨_, _, hreward⟩ := bind_eq_ok_iff.mp hconnected
  unfold check_block_reward at hreward
  obtain ⟨subsidy, hsubsidy, hreward⟩ := bind_eq_ok_iff.mp hreward
  obtain ⟨max_reward, hmax, hreward⟩ := bind_eq_ok_iff.mp hreward
  obtain ⟨rfl, _⟩ := checked_eq_ok.mp hmax
  rw [htxs] at hreward
  dsimp only at hreward
  rw [hchecked.get_value_out] at hreward
  obtain ⟨coinbase_out, hout, hreward⟩ := bind_eq_ok_iff.mp hreward
  cases hout
  exact ⟨subsidy, hsubsidy, of_decide_eq_true (require_eq_ok.mp hreward)⟩

theorem connect_block_total {block : Block} {height : Int} {view after : CoinsViewCache}
    {params : ConsensusParams} {mtp_at_height : Option (Int → Int)} {skip_scripts : Bool} {undo : BlockUndo}
    (hblock : CheckedBlock block) (hcoherent : view.Coherent)
    (hfree : ∀ outpoint ∈ new_outpoints block.vtx, view.visible outpoint = none)
    (hconnect : connect_block env block height view params mtp_at_height skip_scripts = (.ok undo, after)) :
    ∃ subsidy, (get_block_subsidy height params : Except (Failure BlockValidationState) Amount) = .ok subsidy ∧
      after.visible.total ≤ view.visible.total + subsidy := by
  obtain ⟨totals, _, hloop, hconnected⟩ := connect_block_ok env hconnect
  have hreads := prepared_view_reads env block height params view
  generalize prepared_view env block height params view = read at hreads hloop
  obtain ⟨coinbase, rest, htxs⟩ := List.exists_cons_of_ne_nil hblock.nonempty
  have hfree_all : ∀ tx ∈ block.vtx, ∀ entry ∈ outpoints tx, read.visible entry.1 = none := by
    intro tx htx entry hmem
    rw [hreads.visible]
    exact hfree _ (mem_new_outpoints htx hmem)
  have hchecked := hblock.checked
  have hnodup := hblock.txids_nodup
  have hshape := hblock.coinbase_first
  rw [htxs] at hloop hchecked hnodup hshape hfree_all
  obtain ⟨subsidy, hsubsidy, hreward⟩ := check_connected_reward env htxs (hchecked coinbase (by simp)) hconnected
  refine ⟨subsidy, hsubsidy, ?_⟩
  obtain ⟨mid_totals, first, mid, others, hfirst, hrest, _⟩ := connect_txs_cons_ok.mp hloop
  have hcoinbase : coinbase.is_coinbase = true := hshape.1 coinbase rfl
  obtain ⟨hvisible, hmid, hmid_free⟩ := connect_tx_fresh (hreads.coherent hcoherent) hnodup hfree_all hfirst
  have hfees : mid_totals.total_fees = 0 := by
    obtain ⟨hcheck, _⟩ := connect_tx_checked hfirst
    unfold check_connect_tx at hcheck
    rw [hcoinbase, if_pos rfl] at hcheck
    obtain ⟨_, _, hcheck⟩ := bind_eq_ok_iff.mp hcheck
    cases hcheck
    rfl
  have hfirst_total : (read.visible.apply_tx
      (as_u32 (connect_context env block height params mtp_at_height).height) coinbase).total ≤ _ :=
    apply_coinbase_total (hchecked coinbase (by simp)) hcoinbase read.visible_finite
      (hfree_all coinbase (by simp))
  rw [← hvisible, hreads.visible] at hfirst_total
  have hrest_total := connect_txs_total
    (fun tx hmem => ⟨hchecked tx (List.mem_cons_of_mem _ hmem), hshape.2 tx hmem⟩)
    (List.nodup_cons.mp hnodup).2 hmid hmid_free hrest
  linarith

end qubitcoin.validation
