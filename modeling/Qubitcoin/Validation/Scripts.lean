import Qubitcoin.Validation.Disconnect

/-! Every input of a connected block passes script verification. -/

open qubitcoin primitives script transaction block coins params check validation_state

namespace qubitcoin.script_check

theorem verify_in_order_ok {env : Env} {checks : List ScriptCheck} :
    verify_in_order env checks = .ok () ↔ ∀ check ∈ checks, verify_single_script env check = .ok () := by
  induction checks with
  | nil => simp [verify_in_order]
  | cons check rest ih =>
    unfold verify_in_order
    rw [bind_eq_ok_iff]
    constructor
    · rintro ⟨_, hcheck, hrest⟩ other hmem
      rcases List.mem_cons.mp hmem with rfl | hmem
      · exact hcheck
      · exact ih.mp hrest other hmem
    · intro hall
      exact ⟨(), hall check (by simp), ih.mpr fun other hmem => hall other (List.mem_cons_of_mem _ hmem)⟩

theorem verify_scripts_parallel_ok {env : Env} {checks : List ScriptCheck} :
    verify_scripts_parallel env checks = .ok () ↔ ∀ check ∈ checks, verify_single_script env check = .ok () := by
  unfold verify_scripts_parallel
  split
  · exact verify_in_order_ok
  · rw [verify_in_order_ok]
    exact forall_congr' fun check => by rw [(env.schedule_perm checks).mem_iff]

theorem mem_collect_tx_script_checks {flags : UInt32} {tx_index input_index : Nat} {tx : Transaction}
    {coins : List Coin} {input : TxIn} {coin : Coin} (hinput : tx.vin[input_index]? = some input)
    (hcoin : coins[input_index]? = some coin) :
    { script_pubkey := coin.tx_out.script_pubkey, script_sig := input.script_sig, witness := input.witness
      flags, amount := coin.tx_out.value, tx_index, input_index, tx := some tx
      precomputed := some ⟨tx, coins.map Coin.tx_out⟩ : ScriptCheck } ∈
      collect_tx_script_checks flags tx_index tx coins := by
  refine List.mem_map.mpr ⟨((input, coin), input_index), ?_, rfl⟩
  rw [List.mem_zipIdx_iff_getElem?, List.getElem?_zip_eq_some]
  exact ⟨hinput, hcoin⟩

theorem collect_script_checks_from_ok {spent_coins : List (List Coin)} {flags : UInt32} {txs : List Transaction} :
    ∀ {tx_index : Nat} {checks : List ScriptCheck},
      collect_script_checks_from spent_coins flags tx_index txs = .ok checks →
      ∀ {i : Nat} {tx : Transaction} {coins : List Coin}, txs[i]? = some tx → tx.is_coinbase = false →
        spent_coins[tx_index + i - 1]? = some coins →
        ∀ check ∈ collect_tx_script_checks flags (tx_index + i) tx coins, check ∈ checks := by
  induction txs with
  | nil =>
    intro tx_index checks _ i tx coins htx
    cases htx
  | cons head rest ih =>
    intro tx_index checks hcollect i tx coins htx hcoinbase hcoins check hmem
    unfold collect_script_checks_from at hcollect
    cases i with
    | zero =>
      cases htx
      simp only [hcoinbase, Bool.false_eq_true, if_false] at hcollect
      split at hcollect
      · cases hcollect
      · rw [Nat.add_zero] at hcoins hmem
        rw [hcoins] at hcollect
        obtain ⟨others, _, hcollect⟩ := bind_eq_ok_iff.mp hcollect
        cases hcollect
        exact List.mem_append_left _ hmem
    | succ i =>
      have hindex : tx_index + (i + 1) = tx_index + 1 + i := by omega
      rw [hindex] at hcoins hmem
      rw [List.getElem?_cons_succ] at htx
      split at hcollect
      · exact ih hcollect htx hcoinbase hcoins check hmem
      · split at hcollect
        · cases hcollect
        · split at hcollect
          · exact ih hcollect htx hcoinbase hcoins check hmem
          · obtain ⟨others, hothers, hcollect⟩ := bind_eq_ok_iff.mp hcollect
            cases hcollect
            exact List.mem_append_right _ (ih hothers htx hcoinbase hcoins check hmem)

end qubitcoin.script_check

namespace qubitcoin.validation

open qubitcoin.script_check

/-- A pass in the middle of the transaction loop: the loop over the transactions
    before it leaves the view that the pass starts from. -/
theorem connect_txs_getElem {ctx : ConnectContext} {txs : List Transaction} :
    ∀ {totals after_totals : ConnectTotals} {undo : List TxUndo} {view after : CoinsViewCache} {k : Nat}
      {tx : Transaction}, connect_txs ctx txs totals view = (.ok (after_totals, undo), after) →
      txs[k]? = some tx →
      ∃ before_totals before_undo before mid_totals mid others,
        connect_txs ctx (txs.take k) totals view = (.ok (before_totals, before_undo), before) ∧
        connect_tx ctx tx before_totals before =
          (.ok (mid_totals, tx_undo tx (input_coins before.visible tx)), mid) ∧
        undo = before_undo ++ tx_undo tx (input_coins before.visible tx) ++ others := by
  induction txs with
  | nil =>
    intro totals after_totals undo view after k tx _ htx
    cases htx
  | cons head rest ih =>
    intro totals after_totals undo view after k tx hconnect htx
    obtain ⟨mid_totals, first, mid, others, hfirst, hrest, rfl⟩ := connect_txs_cons_ok.mp hconnect
    obtain ⟨_, rfl⟩ := connect_tx_checked hfirst
    cases k with
    | zero =>
      cases htx
      exact ⟨totals, [], view, mid_totals, mid, others, rfl, hfirst, by simp⟩
    | succ k =>
      rw [List.getElem?_cons_succ] at htx
      obtain ⟨before_totals, before_undo, before, last_totals, last, tail, hbefore, htx, rfl⟩ := ih hrest htx
      refine ⟨before_totals, tx_undo head (input_coins view.visible head) ++ before_undo, before,
        last_totals, last, tail, ?_, htx, by simp⟩
      rw [List.take_succ_cons]
      exact connect_txs_cons_ok.mpr ⟨mid_totals, _, mid, before_undo, hfirst, hbefore, rfl⟩

variable (env : Env)

/-- The view as the transaction at index `k` of a block finds it: after the
    BIP30 check, the prefetch and the transactions before it. -/
def view_before_tx (block : Block) (height : Int) (view : CoinsViewCache) (params : ConsensusParams)
    (mtp_at_height : Option (Int → Int)) (k : Nat) : CoinsViewCache :=
  (connect_txs (connect_context env block height params mtp_at_height) (block.vtx.take k) ⟨0, 0⟩
    (prepared_view env block height params view)).2

theorem connect_block_undo {block : Block} {height : Int} {view after : CoinsViewCache}
    {params : ConsensusParams} {mtp_at_height : Option (Int → Int)} {skip_scripts : Bool} {undo : BlockUndo}
    (hshape : CoinbaseFirst block.vtx)
    (hconnect : connect_block env block height view params mtp_at_height skip_scripts = (.ok undo, after))
    {k : Nat} {tx : Transaction} (htx : block.vtx[k]? = some tx) (hcoinbase : tx.is_coinbase = false) :
    ∃ coins : List Coin, undo.tx_undo[k - 1]? = some ⟨coins⟩ ∧
      (tx.vin.map fun input => (view_before_tx env block height view params mtp_at_height k).visible input.prevout) =
        coins.map some := by
  obtain ⟨totals, _, hloop, _⟩ := connect_block_ok env hconnect
  obtain ⟨before_totals, before_undo, before, mid_totals, mid, others, hbefore, hpass, hundo⟩ :=
    connect_txs_getElem hloop htx
  obtain ⟨hcheck, _⟩ := connect_tx_checked hpass
  obtain ⟨coins, _, hfetched, _⟩ := check_connect_tx_ok hcoinbase hcheck
  have hview : view_before_tx env block height view params mtp_at_height k = before := by
    unfold view_before_tx
    rw [hbefore]
  refine ⟨coins, ?_, ?_⟩
  · have hlength : before_undo.length = k - 1 := by
      cases htxs : block.vtx with
      | nil =>
        rw [htxs] at htx
        cases htx
      | cons first rest =>
        rw [htxs] at htx hbefore hshape
        cases k with
        | zero =>
          cases htx
          rw [hshape.1 tx rfl] at hcoinbase
          cases hcoinbase
        | succ k =>
          rw [List.take_succ_cons] at hbefore
          obtain ⟨first_totals, first_undo, first_view, rest_undo, hfirst, hrest, rfl⟩ :=
            connect_txs_cons_ok.mp hbefore
          obtain ⟨_, rfl⟩ := connect_tx_checked hfirst
          have hrest_length : rest_undo.length = (rest.take k).length := connect_txs_undo_length
            (fun other hmem => hshape.2 other (List.mem_of_mem_take hmem)) hrest
          rw [List.getElem?_cons_succ] at htx
          obtain ⟨hk, _⟩ := List.getElem?_eq_some_iff.mp htx
          simp only [tx_undo, hshape.1 first rfl, if_true, List.nil_append, hrest_length, List.length_take]
          omega
    have hrecord : tx_undo tx (input_coins before.visible tx) = [⟨coins⟩] := by
      unfold tx_undo
      rw [hcoinbase, if_neg (by simp), hfetched]
      simp [Function.comp_def]
    rw [hundo, hrecord, ← hlength]
    simp
  · rw [hview]
    simpa [input_coins, hcoinbase] using hfetched

/-- In a block with its coinbase first that connects with its scripts verified, the script of the
    coin that an input spends accepts the input. -/
theorem connect_block_input_verified {block : Block} {height : Int} {view after : CoinsViewCache}
    {params : ConsensusParams} {mtp_at_height : Option (Int → Int)} {undo : BlockUndo}
    (hshape : CoinbaseFirst block.vtx)
    (hconnect : connect_block env block height view params mtp_at_height false = (.ok undo, after)) {k j : Nat}
    {tx : Transaction} {input : TxIn} (htx : block.vtx[k]? = some tx) (hcoinbase : tx.is_coinbase = false)
    (hinput : tx.vin[j]? = some input) :
    ∃ (coin : Coin) (spent_coins : List Coin),
      (tx.vin.map fun input => (view_before_tx env block height view params mtp_at_height k).visible input.prevout) =
        spent_coins.map some ∧
      (view_before_tx env block height view params mtp_at_height k).visible input.prevout = some coin ∧
      (env.verify_script input.script_sig coin.tx_out.script_pubkey input.witness
        (get_block_script_flags height (block.block_hash env.hash256) params)
        (.TransactionSignatureChecker tx j coin.tx_out.value ⟨tx, spent_coins.map Coin.tx_out⟩)).1 = true := by
  obtain ⟨coins, hundo, hvisible⟩ := connect_block_undo env hshape hconnect htx hcoinbase
  obtain ⟨totals, _, hloop, hconnected⟩ := connect_block_ok env hconnect
  have hat := congrArg (fun list => list[j]?) hvisible
  simp only [List.getElem?_map, hinput, Option.map_some] at hat
  obtain ⟨coin, hcoin, heq⟩ := Option.map_eq_some_iff.mp hat.symm
  refine ⟨coin, coins, hvisible, heq.symm, ?_⟩
  -- The collected checks contain the one of this input, and all of them passed.
  unfold check_connected at hconnected
  obtain ⟨_, hscripts, _⟩ := bind_eq_ok_iff.mp hconnected
  unfold check_block_scripts at hscripts
  simp only [Bool.false_eq_true, if_false] at hscripts
  split at hscripts
  · cases hscripts
  · next checks hcollect =>
    split at hscripts
    · cases hscripts
    · next hverified =>
      have hcoins : (undo.tx_undo.map TxUndo.prev_coins)[0 + k - 1]? = some coins := by
        rw [Nat.zero_add, List.getElem?_map, hundo]
        rfl
      have hmem := collect_script_checks_from_ok hcollect htx hcoinbase hcoins _
        (mem_collect_tx_script_checks hinput hcoin)
      have hsingle := verify_scripts_parallel_ok.mp hverified _ hmem
      unfold verify_single_script at hsingle
      dsimp only at hsingle
      split at hsingle
      · next hresult => exact hresult
      · cases hsingle

/-- If a checked block connects with its scripts verified, then the script of the
    coin that each input spends at its place in the block accepts that input,
    under the flags of the block. -/
theorem connect_block_verifies_scripts {block : Block} {height : Int} {view after : CoinsViewCache}
    {params : ConsensusParams} {mtp_at_height : Option (Int → Int)} {check_merkle_root : Bool} {undo : BlockUndo}
    (hcheck : check_block env block params check_merkle_root = .ok ())
    (hconnect : connect_block env block height view params mtp_at_height false = (.ok undo, after)) :
    ∀ k tx, block.vtx[k]? = some tx → tx.is_coinbase = false → ∀ j input, tx.vin[j]? = some input →
      ∃ (coin : Coin) (spent_coins : List Coin),
        (tx.vin.map fun input => (view_before_tx env block height view params mtp_at_height k).visible input.prevout) =
          spent_coins.map some ∧
        (view_before_tx env block height view params mtp_at_height k).visible input.prevout = some coin ∧
        (env.verify_script input.script_sig coin.tx_out.script_pubkey input.witness
          (get_block_script_flags height (block.block_hash env.hash256) params)
          (.TransactionSignatureChecker tx j coin.tx_out.value ⟨tx, spent_coins.map Coin.tx_out⟩)).1 = true := by
  intro k tx htx hcoinbase j input hinput
  exact connect_block_input_verified env (check_block_ok env hcheck).coinbase_first hconnect htx hcoinbase hinput

/-- The payment of a block with one payment. -/
theorem connect_block_verifies_scripts_payment :
    ∃ (coin : Coin) (spent_coins : List Coin),
      (sample_payment.vin.map fun input => (view_before_tx .op_true
          (sample_block [sample_coinbase [1, 1] 50, sample_payment]) 1 (CoinsViewCache.new funding_base)
          .regtest none 1).visible input.prevout) = spent_coins.map some ∧
      (view_before_tx .op_true (sample_block [sample_coinbase [1, 1] 50, sample_payment]) 1
        (CoinsViewCache.new funding_base) .regtest none 1).visible funding_outpoint = some coin ∧
      (Env.op_true.verify_script ⟨[]⟩ coin.tx_out.script_pubkey .new
        (get_block_script_flags 1 ((sample_block [sample_coinbase [1, 1] 50, sample_payment]).block_hash
          Env.op_true.hash256) .regtest)
        (.TransactionSignatureChecker sample_payment 0 coin.tx_out.value
          ⟨sample_payment, spent_coins.map Coin.tx_out⟩)).1 = true := by
  have hcheck : check_block .op_true (sample_block [sample_coinbase [1, 1] 50, sample_payment]) .regtest true =
      .ok () := by decide +kernel
  have hconnect : (connect_block .op_true (sample_block [sample_coinbase [1, 1] 50, sample_payment]) 1
      (CoinsViewCache.new funding_base) .regtest none false).1 = .ok ⟨[⟨[funding_coin 50]⟩]⟩ := by
    decide +kernel
  exact connect_block_verifies_scripts .op_true hcheck (Prod.ext hconnect rfl) 1 sample_payment rfl rfl 0
    ⟨funding_outpoint, ⟨[]⟩, SEQUENCE_FINAL, .new⟩ rfl

end qubitcoin.validation
